/-
MidiTraining/Selection.lean

Clearing the colours: `applyToNotesInSelection`.

One cursor walks every staff and voice of the selection.  What MuseScore does
with a cursor is a parameter (`CursorApi`), of which the model uses what its
documentation says (`Documented`): a cursor is at a place, the segments from
it on and a track.

The program walks the whole score if the cursor has no segment after the
selection, and else starts each walk at the anchor, the first segment of the
selection with an element on voice 0 of its first staff (`apply_calls`).  The
first is right without a selection but not for one that reaches the end of the
score; the second misses the notes before the anchor.
`selection_applied_iff` says when exactly the selected notes are called.
-/
import Mathlib.Data.Int.Notation
import Mathlib.Logic.Function.Basic
import MidiTraining.Score

namespace MidiTraining

universe u

variable {ν : Type u} {κ : Type*}

/-! ### The cursor -/

/-- The properties and methods of `curScore` and of its cursors that the
plugin uses. -/
structure CursorApi (ν : Type u) (κ : Type*) where
  nstaves : ℕ
  newCursor : κ
  rewind : ℕ → κ → κ
  setVoice : ℕ → κ → κ
  setStaffIdx : ℕ → κ → κ
  next : κ → κ
  staffIdx : κ → ℕ
  tick : κ → ℕ
  /-- The cursor has a segment. -/
  segment : κ → Bool
  element : κ → Option (Element ν)

/-- The first of these segments with an element on the track, and those after
it. -/
def forward (track : ℕ) (segments : List (Segment ν)) : List (Segment ν) :=
  segments.dropWhile fun segment => (segment.element track).isNone

/-- The place of a cursor. -/
structure Place (ν : Type u) where
  /-- The segment of the cursor and those after it: none without a segment. -/
  rest : List (Segment ν)
  track : ℕ

/-- What the documentation says about the cursors of a score. -/
structure Documented (api : CursorApi ν κ) (score : Score ν) (selection : Option (Range score))
    (place : κ → Place ν) : Prop where
  nstaves : api.nstaves = score.nstaves
  newCursor : (place api.newCursor).rest = []
  rewind_zero : ∀ c,
    place (api.rewind 0 c) = ⟨forward (place c).track score.segments, (place c).track⟩
  rewind_of_none : selection = none → ∀ c, place (api.rewind 1 c) = place c ∧
    place (api.rewind 2 c) = place c
  rewind_one : ∀ r, selection = some r → ∀ c, place (api.rewind 1 c) =
    ⟨forward (4 * r.firstStaff) (score.segments.drop r.start), 4 * r.firstStaff⟩
  rewind_two : ∀ r, selection = some r → ∀ c, place (api.rewind 2 c) =
    ⟨score.segments.drop r.stop, 4 * r.lastStaff + 3⟩
  setVoice : ∀ voice < 4, ∀ c, place (api.setVoice voice c) =
    ⟨(place c).rest, 4 * ((place c).track / 4) + voice⟩
  setStaffIdx : ∀ staff < score.nstaves, ∀ c, place (api.setStaffIdx staff c) =
    ⟨(place c).rest, 4 * staff + (place c).track % 4⟩
  next : ∀ c, place (api.next c) = ⟨forward (place c).track (place c).rest.tail, (place c).track⟩
  staffIdx : ∀ c, api.staffIdx c = (place c).track / 4
  segment : ∀ c, api.segment c = true ↔ (place c).rest ≠ []
  tick : ∀ c segment rest, (place c).rest = segment :: rest → api.tick c = segment.tick
  element : ∀ c segment rest, (place c).rest = segment :: rest →
    api.element c = segment.element (place c).track

/-! ### `applyToNotesInSelection` -/

section apply

variable {τ : Type u} (api : CursorApi ν κ) (func : τ → ν → τ)

/-- The calls of `func` on the notes under the cursor. -/
def visit (cursor : κ) (x : τ) : τ :=
  match api.element cursor with
  | some (.chord notes) => notes.foldl func x
  | _ => x

/-- The `while` loop. -/
def walk (fullScore : Bool) (endTick : ℕ) : ℕ → κ → τ → Option (κ × τ)
  | 0, _, _ => none
  | fuel + 1, cursor, x =>
    if api.segment cursor ∧ (fullScore ∨ api.tick cursor < endTick) then
      walk fullScore endTick fuel (api.next cursor) (visit api func cursor x)
    else
      some (cursor, x)

/-- The body of the inner `for` loop.  The cursor is where the last walk left
it; `rewind` forgets that. -/
def applyToVoice (fuel : ℕ) (fullScore : Bool) (endTick staff : ℕ) (x : κ × τ) (voice : ℕ) :
    Option (κ × τ) :=
  -- sets voice to 0, so that the voice has to be set after it
  let cursor := api.rewind 1 x.1
  let cursor := api.setVoice voice cursor
  let cursor := api.setStaffIdx staff cursor
  -- if no selection, beginning of score
  let cursor := if fullScore then api.rewind 0 cursor else cursor
  walk api func fullScore endTick fuel cursor x.2

/-- The body of the outer `for` loop. -/
def applyToStaff (fuel : ℕ) (fullScore : Bool) (endTick : ℕ) (x : κ × τ) (staff : ℕ) :
    Option (κ × τ) :=
  (List.range 4).foldlM (applyToVoice api func fuel fullScore endTick staff) x

/-- `applyToNotesInSelection`: calls `func`, here on the state `x`, on notes of
the score.  Each `while` loop ends within `fuel` tests. -/
def applyToNotesInSelection (fuel : ℕ) (x : τ) : Option τ :=
  let cursor := api.rewind 1 api.newCursor
  let startStaff := api.staffIdx cursor
  let cursor := api.rewind 2 cursor
  let endStaff : ℤ := api.staffIdx cursor
  let endTick := api.tick cursor
  -- "no selection", and a selection that reaches the end of the score
  let fullScore := !api.segment cursor
  let startStaff := if fullScore then 0 else startStaff
  let endStaff := if fullScore then (api.nstaves : ℤ) - 1 else endStaff
  -- the last staff is included; a score without staves has none
  let staves := List.range' startStaff (endStaff + 1 - startStaff).toNat
  (staves.foldlM (applyToStaff api func fuel fullScore endTick) (cursor, x)).map Prod.snd

end apply

/-- `uncolorNote`, on the colours of the notes. -/
def uncolorNote [DecidableEq ν] (color : ν → String) (note : ν) : ν → String :=
  Function.update color note "#000000"

/-! ### The notes of a list of segments -/

section notes

variable {segments : List (Segment ν)} {staves : List ℕ} {track : ℕ} {note : ν}

theorem forward_cons_of_isNone {segment : Segment ν} (h : (segment.element track).isNone) :
    forward track (segment :: segments) = forward track segments :=
  List.dropWhile_cons_of_pos (p := fun segment : Segment ν => (segment.element track).isNone) h

theorem forward_cons_of_isSome {segment : Segment ν} (h : (segment.element track).isSome) :
    forward track (segment :: segments) = segment :: segments := by
  apply List.dropWhile_cons_of_neg
  simpa [Option.isSome_iff_ne_none] using h

/-- What `forward` passes over has no notes on its track. -/
theorem notesOnTrack_forward (p : Segment ν → Bool) :
    notesOnTrack ((forward track segments).filter p) track =
      notesOnTrack (segments.filter p) track := by
  induction segments with
  | nil => rfl
  | cons segment segments ih =>
    rcases h : segment.element track with - | element
    · -- passed over, and without notes on the track
      have hnotes : segment.notes track = [] := Segment.notes_of_isNone (by simp [h])
      rw [forward_cons_of_isNone (by simp [h]), ih]
      rcases hp : p segment with - | - <;> simp [notesOnTrack, hp, hnotes]
    · rw [forward_cons_of_isSome (by simp [h])]

end notes

/-! ### The loops -/

section loops

variable {τ : Type u} {api : CursorApi ν κ} {score : Score ν} {selection : Option (Range score)}
variable {place : κ → Place ν} {func : τ → ν → τ}

theorem Documented.visit_eq (hapi : Documented api score selection place) {c : κ}
    {segment : Segment ν} {rest : List (Segment ν)} (h : (place c).rest = segment :: rest) (x : τ) :
    visit api func c x = (segment.notes (place c).track).foldl func x := by
  unfold visit Segment.notes
  rw [hapi.element c segment rest h]
  rcases segment.element (place c).track with - | ⟨notes⟩ | - <;> rfl

/-- The test of the `while` loop, on a segment. -/
def Segment.within (fullScore : Bool) (endTick : ℕ) (segment : Segment ν) : Bool :=
  fullScore || decide (segment.tick < endTick)

/-- Ticks increase, so that no segment passes the test after one that did
not. -/
theorem filter_within_eq_nil {fullScore : Bool} {endTick : ℕ} {segment : Segment ν}
    {rest : List (Segment ν)} (hordered : (segment :: rest).Pairwise fun s s' => s.tick < s'.tick)
    (h : segment.within fullScore endTick = false) :
    (segment :: rest).filter (Segment.within fullScore endTick) = [] := by
  rw [List.filter_eq_nil_iff]
  intro s hs
  simp only [Segment.within, Bool.or_eq_false_iff, decide_eq_false_iff_not] at h
  simp only [Segment.within, h.1, Bool.false_or, decide_eq_true_eq]
  rcases List.mem_cons.mp hs with rfl | hs
  · exact h.2
  · -- a later segment, with a later tick
    have := List.rel_of_pairwise_cons hordered hs
    omega

/-- A walk ends, and calls `func` on the notes of the track on the segments
that pass the test. -/
theorem walk_eq (hapi : Documented api score selection place) (fullScore : Bool) (endTick : ℕ)
    {fuel : ℕ} {c : κ} (hordered : (place c).rest.Pairwise fun s s' => s.tick < s'.tick)
    (hfuel : (place c).rest.length < fuel) (x : τ) :
    ∃ c', walk api func fullScore endTick fuel c x =
      some (c', (notesOnTrack ((place c).rest.filter (Segment.within fullScore endTick))
        (place c).track).foldl func x) := by
  induction fuel generalizing c x with
  | zero => omega
  | succ fuel ih =>
    have hsegment := hapi.segment c
    rcases hrest : (place c).rest with - | ⟨segment, rest⟩
    · -- the end of the score
      rw [hrest] at hsegment
      refine ⟨c, ?_⟩
      rw [walk, if_neg (by simp [hsegment])]
      rfl
    · rw [hrest] at hsegment hordered hfuel
      have htest : api.segment c ∧ (fullScore ∨ api.tick c < endTick) ↔
          segment.within fullScore endTick := by
        rw [hapi.tick c segment rest hrest]
        simp [hsegment, Segment.within]
      rcases hwithin : segment.within fullScore endTick with - | -
      · -- the end of the selection: nothing after it passes the test
        refine ⟨c, ?_⟩
        rw [walk, if_neg (by simp [htest, hwithin]), filter_within_eq_nil hordered hwithin]
        rfl
      · -- the next segment with an element is among the rest
        have hnext := hapi.next c
        rw [hrest] at hnext
        have hsub : (forward (place c).track rest).Sublist rest := List.dropWhile_sublist _
        have hlength := hsub.length_le
        obtain ⟨c', hc'⟩ := ih (c := api.next c)
          (by rw [hnext]; exact (List.pairwise_cons.mp hordered).2.sublist hsub)
          (by rw [hnext]; simp at hfuel ⊢; omega) (visit api func c x)
        refine ⟨c', ?_⟩
        rw [walk, if_pos (htest.mpr hwithin), hc', hnext, hapi.visit_eq hrest]
        show some (c', _) = _
        rw [List.tail_cons, notesOnTrack_forward, List.filter_cons_of_pos hwithin, notesOnTrack,
          notesOnTrack, List.flatMap_cons, List.foldl_append]

/-- A loop whose body ends, whatever the cursor, and calls `func` on the notes
`g a`. -/
theorem foldlM_eq {α : Type*} {f : κ × τ → α → Option (κ × τ)} {g : α → List ν} {l : List α}
    (h : ∀ a ∈ l, ∀ x, ∃ c, f x a = some (c, (g a).foldl func x.2)) (x : κ × τ) :
    ∃ c, l.foldlM f x = some (c, (l.flatMap g).foldl func x.2) := by
  induction l generalizing x with
  | nil => exact ⟨x.1, rfl⟩
  | cons a l ih =>
    obtain ⟨c, hc⟩ := h a (by simp) x
    obtain ⟨c', hc'⟩ := ih (fun b hb => h b (by simp [hb])) (c, (g a).foldl func x.2)
    refine ⟨c', ?_⟩
    rw [List.foldlM_cons, hc, List.flatMap_cons, List.foldl_append]
    exact hc'

/-- The loops over the staves and voices, each of whose walks reaches these
segments. -/
theorem staves_eq {fuel endTick : ℕ} {fullScore : Bool} {segments : List (Segment ν)}
    {staves : List ℕ}
    (h : ∀ staff ∈ staves, ∀ voice < 4, ∀ x, ∃ c,
      applyToVoice api func fuel fullScore endTick staff x voice =
        some (c, (notesOnTrack segments (4 * staff + voice)).foldl func x.2)) (x : κ × τ) :
    ∃ c, staves.foldlM (applyToStaff api func fuel fullScore endTick) x =
      some (c, (notesOn segments staves).foldl func x.2) := by
  apply foldlM_eq
  intro staff hstaff x
  apply foldlM_eq
  intro voice hvoice x
  exact h staff hstaff voice (List.mem_range.mp hvoice) x

theorem Documented.place_staff (hapi : Documented api score selection place) {staff voice : ℕ}
    (hstaff : staff < score.nstaves) (hvoice : voice < 4) (c : κ) :
    place (api.setStaffIdx staff (api.setVoice voice c)) =
      ⟨(place c).rest, 4 * staff + voice⟩ := by
  rw [hapi.setStaffIdx staff hstaff, hapi.setVoice voice hvoice]
  show Place.mk (place c).rest (4 * staff + (4 * ((place c).track / 4) + voice) % 4) = _
  rw [show (4 * ((place c).track / 4) + voice) % 4 = voice by omega]

end loops

/-! ### The calls of a run -/

/-- The segments of a range from its anchor on, and those after it. -/
def Range.anchored {score : Score ν} (r : Range score) : List (Segment ν) :=
  forward (4 * r.firstStaff) (score.segments.drop r.start)

/-- The notes that `func` is called on, in order. -/
def Score.calls (score : Score ν) : Option (Range score) → List ν
  | none => score.notes
  | some r =>
    match score.segments.drop r.stop with
    | [] => score.notes
    | stop :: _ => notesOn (r.anchored.filter (Segment.within false stop.tick)) r.staves

section calls

variable {τ : Type u} {api : CursorApi ν κ} {score : Score ν} {selection : Option (Range score)}
variable {place : κ → Place ν} {func : τ → ν → τ} {fuel : ℕ}

theorem Range.anchored_sublist (r : Range score) : r.anchored.Sublist score.segments :=
  (List.dropWhile_sublist _).trans (List.drop_sublist _ _)

/-- A walk over the segments from a place of the score on. -/
theorem walk_score (func : τ → ν → τ) (hapi : Documented api score selection place)
    (hfuel : score.segments.length < fuel) (fullScore : Bool) (endTick : ℕ) {c : κ}
    (hsub : (place c).rest.Sublist score.segments) (x : τ) :
    ∃ c', walk api func fullScore endTick fuel c x =
      some (c', (notesOnTrack ((place c).rest.filter (Segment.within fullScore endTick))
        (place c).track).foldl func x) := by
  apply walk_eq hapi
  · exact score.ordered.sublist hsub
  · exact Nat.lt_of_le_of_lt hsub.length_le hfuel

/-- The whole score, each walk from the start of its track. -/
theorem fullScore_eq (func : τ → ν → τ) (hapi : Documented api score selection place)
    (hfuel : score.segments.length < fuel) (endTick : ℕ) (x : κ × τ) :
    ∃ c, (List.range score.nstaves).foldlM (applyToStaff api func fuel true endTick) x =
      some (c, score.notes.foldl func x.2) := by
  apply staves_eq
  intro staff hstaff voice hvoice x
  -- `rewind 0` keeps the track, so each walk finds the start of its own
  have hplace := hapi.rewind_zero (api.setStaffIdx staff (api.setVoice voice (api.rewind 1 x.1)))
  rw [hapi.place_staff (List.mem_range.mp hstaff) hvoice] at hplace
  have hsub : (forward (4 * staff + voice) score.segments).Sublist score.segments :=
    List.dropWhile_sublist _
  obtain ⟨c', hc'⟩ := walk_score func hapi hfuel true endTick (by rw [hplace]; exact hsub)
    x.2
  have hall : score.segments.filter (Segment.within true endTick) = score.segments :=
    List.filter_eq_self.mpr fun _ _ => rfl
  rw [hplace, notesOnTrack_forward, hall] at hc'
  exact ⟨c', hc'⟩

/-- The staves of a range, each walk from the anchor. -/
theorem range_eq (func : τ → ν → τ) {r : Range score} (hapi : Documented api score (some r) place)
    (hfuel : score.segments.length < fuel) (endTick : ℕ) (x : κ × τ) :
    ∃ c, r.staves.foldlM (applyToStaff api func fuel false endTick) x =
      some (c, (notesOn (r.anchored.filter (Segment.within false endTick)) r.staves).foldl func
        x.2) := by
  apply staves_eq
  intro staff hstaff voice hvoice x
  have hlt : staff < score.nstaves :=
    Nat.lt_of_le_of_lt (Range.mem_staves_iff.mp hstaff).2 r.lastStaff_lt
  -- the place is found on the first track of the selection, then the track changes
  have hplace := hapi.place_staff hlt hvoice (api.rewind 1 x.1)
  rw [hapi.rewind_one r rfl] at hplace
  obtain ⟨c', hc'⟩ := walk_score func hapi hfuel false endTick
    (by rw [hplace]; exact r.anchored_sublist) x.2
  rw [hplace] at hc'
  exact ⟨c', hc'⟩

/-- Without a segment after the selection, the program walks the whole
score. -/
theorem apply_fullScore (hapi : Documented api score selection place)
    (hfuel : score.segments.length < fuel)
    (h : (place (api.rewind 2 (api.rewind 1 api.newCursor))).rest = []) (x : τ) :
    applyToNotesInSelection api func fuel x = some (score.notes.foldl func x) := by
  obtain ⟨c, hc⟩ : ∃ c, api.rewind 2 (api.rewind 1 api.newCursor) = c := ⟨_, rfl⟩
  rw [hc] at h
  have hsegment : api.segment c = false := by
    have := hapi.segment c
    simpa [h] using this
  have hcount : ((score.nstaves : ℤ) - 1 + 1 - (0 : ℕ)).toNat = score.nstaves := by omega
  obtain ⟨c', hc'⟩ := fullScore_eq func hapi hfuel (api.tick c) (c, x)
  unfold applyToNotesInSelection
  simp only [hc, hsegment, hapi.nstaves, Bool.not_false, if_true]
  rw [hcount, ← List.range_eq_range', hc']
  rfl

theorem apply_range {r : Range score} (hapi : Documented api score (some r) place)
    (hfuel : score.segments.length < fuel) {stop : Segment ν} {rest : List (Segment ν)}
    (h : score.segments.drop r.stop = stop :: rest) (x : τ) :
    applyToNotesInSelection api func fuel x =
      some ((notesOn (r.anchored.filter (Segment.within false stop.tick)) r.staves).foldl func
        x) := by
  have hone := hapi.rewind_one r rfl api.newCursor
  have htwo := hapi.rewind_two r rfl (api.rewind 1 api.newCursor)
  have hfirst : api.staffIdx (api.rewind 1 api.newCursor) = r.firstStaff := by
    rw [hapi.staffIdx, hone]
    exact Nat.mul_div_cancel_left _ (by decide)
  obtain ⟨c, hc⟩ : ∃ c, api.rewind 2 (api.rewind 1 api.newCursor) = c := ⟨_, rfl⟩
  rw [hc] at htwo
  have hlast : api.staffIdx c = r.lastStaff := by
    rw [hapi.staffIdx, htwo]
    show (4 * r.lastStaff + 3) / 4 = r.lastStaff
    omega
  rw [h] at htwo
  have hsegment : api.segment c = true := (hapi.segment c).mpr (by rw [htwo]; simp)
  have htick : api.tick c = stop.tick := hapi.tick c stop rest (by rw [htwo])
  have hcount : ((r.lastStaff : ℤ) + 1 - r.firstStaff).toNat = r.lastStaff + 1 - r.firstStaff := by
    omega
  obtain ⟨c', hc'⟩ := range_eq func hapi hfuel stop.tick (c, x)
  unfold applyToNotesInSelection
  simp only [hc, hsegment, htick, hfirst, hlast, Bool.not_true, Bool.false_eq_true, if_false]
  rw [hcount, ← Range.staves, hc']
  rfl

/-- The program ends, and calls `func` on these notes. -/
theorem apply_calls (hapi : Documented api score selection place)
    (hfuel : score.segments.length < fuel) (x : τ) :
    applyToNotesInSelection api func fuel x = some ((score.calls selection).foldl func x) := by
  rcases selection with - | r
  · apply apply_fullScore hapi hfuel
    -- a new cursor has no segment, and `rewind` leaves it so
    obtain ⟨hone, -⟩ := hapi.rewind_of_none rfl api.newCursor
    obtain ⟨-, htwo⟩ := hapi.rewind_of_none rfl (api.rewind 1 api.newCursor)
    rw [htwo, hone, hapi.newCursor]
  · unfold Score.calls
    rcases h : score.segments.drop r.stop with - | ⟨stop, rest⟩
    · simp only [h]
      apply apply_fullScore hapi hfuel
      rw [hapi.rewind_two r rfl, h]
    · simp only [h]
      exact apply_range hapi hfuel h x

end calls

/-! ### The selected notes -/

/-- The program ends and, whatever `func` does, calls it on these notes in
turn. -/
def Calls (api : CursorApi ν κ) (fuel : ℕ) (calls : List ν) : Prop :=
  ∀ {τ : Type u} (func : τ → ν → τ) (x : τ),
    applyToNotesInSelection api func fuel x = some (calls.foldl func x)

/-- These are the selected notes, each once. -/
structure ExactlySelected (score : Score ν) (selection : Option (Range score)) (calls : List ν) :
    Prop where
  once : calls.Nodup
  mem_iff : ∀ note, note ∈ calls ↔ score.Selected selection note

/-- The program ends and calls `func` exactly once on each selected note and
on no other. -/
def AppliesExactly (api : CursorApi ν κ) (score : Score ν) (selection : Option (Range score))
    (fuel : ℕ) : Prop :=
  ∃ calls, Calls api fuel calls ∧ ExactlySelected score selection calls

/-- The segments of a range before its anchor. -/
def Range.skipped {score : Score ν} (r : Range score) : List (Segment ν) :=
  (score.segments.drop r.start).takeWhile fun segment => (segment.element (4 * r.firstStaff)).isNone

/-- A range that reaches the end of the score covers all its notes; of another
one, no note lies before the anchor. -/
def Score.WalksFit (score : Score ν) : Option (Range score) → Prop
  | none => True
  | some r =>
    if r.stop = score.segments.length then
      ∀ segment ∈ score.segments, ∀ track, track / 4 < score.nstaves →
        segment.notes track ≠ [] → r.Covers segment track
    else
      ∀ segment ∈ r.skipped, ∀ track, r.Covers segment track → segment.notes track = []

theorem Score.walksFit_of_end {score : Score ν} {r : Range score}
    (h : r.stop = score.segments.length) :
    score.WalksFit (some r) ↔ ∀ segment ∈ score.segments, ∀ track, track / 4 < score.nstaves →
      segment.notes track ≠ [] → r.Covers segment track := by
  unfold Score.WalksFit
  simp only [if_pos h]

theorem Score.walksFit_of_ne {score : Score ν} {r : Range score}
    (h : r.stop ≠ score.segments.length) :
    score.WalksFit (some r) ↔
      ∀ segment ∈ r.skipped, ∀ track, r.Covers segment track → segment.notes track = [] := by
  unfold Score.WalksFit
  simp only [if_neg h]

theorem Calls.unique {api : CursorApi ν κ} {fuel : ℕ} {calls calls' : List ν}
    (h : Calls api fuel calls) (h' : Calls api fuel calls') : calls = calls' := by
  -- a function that keeps the notes it is called on
  have hsome := (h (fun notes note => note :: notes) []).symm.trans (h' _ [])
  simpa using hsome

section selected

variable {score : Score ν} {r : Range score} {segment : Segment ν} {track : ℕ} {note : ν}

theorem Range.covers_iff {stop : Segment ν} {rest : List (Segment ν)}
    (hstop : score.segments.drop r.stop = stop :: rest) (h : segment ∈ score.segments) :
    r.Covers segment track ↔ segment ∈ score.segments.drop r.start ∧
      segment.within false stop.tick ∧ track / 4 ∈ r.staves := by
  have hget : score.segments[r.stop]? = some stop := by
    rw [← List.head?_drop, hstop]
    rfl
  rw [Range.mem_drop_start_iff h, Range.mem_staves_iff]
  constructor
  · intro hcovers
    exact ⟨hcovers.startTick_le, by simpa [Segment.within] using hcovers.tick_lt stop hget,
      hcovers.firstStaff_le, hcovers.le_lastStaff⟩
  · rintro ⟨hstart, hwithin, hfirst, hlast⟩
    refine ⟨hstart, ?_, hfirst, hlast⟩
    intro s hs
    rw [hget] at hs
    obtain rfl := Option.some.inj hs
    simpa [Segment.within] using hwithin

/-- A range that reaches the end, for which the whole score is walked. -/
theorem mem_notes_iff_selected : (∀ note, note ∈ score.notes ↔ score.Selected (some r) note) ↔
    ∀ segment ∈ score.segments, ∀ track, track / 4 < score.nstaves →
      segment.notes track ≠ [] → r.Covers segment track := by
  constructor
  · intro h segment hsegment track htrack hne
    obtain ⟨note, hnote⟩ := List.exists_mem_of_ne_nil _ hne
    have hmem := Score.mem_notes_iff.mpr ⟨segment, hsegment, track, htrack, hnote⟩
    obtain ⟨segment', hsegment', track', hcovers, hnote'⟩ := (h note).mp hmem
    obtain ⟨rfl, rfl⟩ :=
      Score.notes_unique hsegment hsegment' htrack hcovers.lt_nstaves hnote hnote'
    exact hcovers
  · intro h note
    rw [Score.mem_notes_iff]
    constructor
    · rintro ⟨segment, hsegment, track, htrack, hnote⟩
      exact ⟨segment, hsegment, track, h segment hsegment track htrack (List.ne_nil_of_mem hnote),
        hnote⟩
    · rintro ⟨segment, hsegment, track, hcovers, hnote⟩
      exact ⟨segment, hsegment, track, hcovers.lt_nstaves, hnote⟩

/-- Another range, which is walked from the anchor. -/
theorem mem_anchored_iff_selected {stop : Segment ν} {rest : List (Segment ν)}
    (hstop : score.segments.drop r.stop = stop :: rest) :
    (∀ note, note ∈ notesOn (r.anchored.filter (Segment.within false stop.tick)) r.staves ↔
      score.Selected (some r) note) ↔
    ∀ segment ∈ r.skipped, ∀ track, r.Covers segment track → segment.notes track = [] := by
  have hsplit : r.skipped ++ r.anchored = score.segments.drop r.start :=
    List.takeWhile_append_dropWhile
  have hordered : (r.skipped ++ r.anchored).Pairwise fun s s' => s.tick < s'.tick := by
    rw [hsplit]
    exact score.ordered.sublist (List.drop_sublist _ _)
  have hmem {s : Segment ν} (hs : s ∈ r.skipped ++ r.anchored) : s ∈ score.segments := by
    rw [hsplit] at hs
    exact List.mem_of_mem_drop hs
  simp only [mem_notesOn_iff, List.mem_filter]
  constructor
  · intro h segment hsegment track hcovers
    by_contra hne
    obtain ⟨note, hnote⟩ := List.exists_mem_of_ne_nil _ hne
    have hin := hmem (List.mem_append_left _ hsegment)
    obtain ⟨s, ⟨hs, hwithin⟩, track', htrack', hnote'⟩ :=
      (h note).mpr ⟨segment, hin, track, hcovers, hnote⟩
    have hin' := hmem (List.mem_append_right _ hs)
    have hlt := Nat.lt_of_le_of_lt (Range.mem_staves_iff.mp htrack').2 r.lastStaff_lt
    obtain ⟨rfl, -⟩ := Score.notes_unique hin hin' hcovers.lt_nstaves hlt hnote hnote'
    -- the segment is before the anchor and not
    exact Nat.lt_irrefl _ ((List.pairwise_append.mp hordered).2.2 segment hsegment segment hs)
  · intro h note
    constructor
    · rintro ⟨segment, ⟨hsegment, hwithin⟩, track, htrack, hnote⟩
      have hin := List.mem_append_right r.skipped hsegment
      refine ⟨segment, hmem hin, track, ?_, hnote⟩
      rw [hsplit] at hin
      exact (Range.covers_iff hstop (List.mem_of_mem_drop hin)).mpr ⟨hin, hwithin, htrack⟩
    · rintro ⟨segment, hsegment, track, hcovers, hnote⟩
      obtain ⟨hdrop, hwithin, htrack⟩ := (Range.covers_iff hstop hsegment).mp hcovers
      rw [← hsplit] at hdrop
      -- before the anchor it would have no notes
      rcases List.mem_append.mp hdrop with hskipped | hanchored
      · rw [h segment hskipped track hcovers] at hnote
        cases hnote
      · exact ⟨segment, ⟨hanchored, hwithin⟩, track, htrack, hnote⟩

/-- No note is called twice. -/
theorem Score.calls_nodup (selection : Option (Range score)) : (score.calls selection).Nodup := by
  rcases selection with - | r
  · exact score.nodup
  · unfold Score.calls
    rcases h : score.segments.drop r.stop with - | ⟨stop, rest⟩
    · simp only [h]
      exact score.nodup
    · simp only [h]
      have hsub : (r.anchored.filter (Segment.within false stop.tick)).Sublist score.segments :=
        List.filter_sublist.trans r.anchored_sublist
      exact (notesOn_sublist hsub r.staves_sublist).nodup score.nodup

/-- The calls are the selected notes exactly if the walks fit. -/
theorem calls_iff (selection : Option (Range score)) :
    ExactlySelected score selection (score.calls selection) ↔ score.WalksFit selection := by
  have hmem : ExactlySelected score selection (score.calls selection) ↔
      ∀ note, note ∈ score.calls selection ↔ score.Selected selection note :=
    ⟨fun h => h.mem_iff, fun h => ⟨score.calls_nodup selection, h⟩⟩
  rw [hmem]
  rcases selection with - | r
  · exact iff_of_true (fun _ => Score.mem_notes_iff) trivial
  · unfold Score.calls
    rcases h : score.segments.drop r.stop with - | ⟨stop, rest⟩
    · have hstop : r.stop = score.segments.length := by
        have := r.stop_le
        have := List.drop_eq_nil_iff.mp h
        omega
      rw [Score.walksFit_of_end hstop]
      simp only [h]
      exact mem_notes_iff_selected
    · have hstop : r.stop ≠ score.segments.length := by
        intro heq
        rw [heq, List.drop_length] at h
        cases h
      rw [Score.walksFit_of_ne hstop]
      simp only [h]
      exact mem_anchored_iff_selected h

end selected

section applied

variable {api : CursorApi ν κ} {score : Score ν} {selection : Option (Range score)}
variable {place : κ → Place ν} {fuel : ℕ}

theorem appliesExactly_iff (hapi : Documented api score selection place)
    (hfuel : score.segments.length < fuel) :
    AppliesExactly api score selection fuel ↔
      ExactlySelected score selection (score.calls selection) := by
  have hcalls : Calls api fuel (score.calls selection) := fun _ x => apply_calls hapi hfuel x
  constructor
  · rintro ⟨calls, hcalls', hselected⟩
    rw [hcalls.unique hcalls']
    exact hselected
  · intro hselected
    exact ⟨_, hcalls, hselected⟩

/-- The program calls `func` exactly once on each selected note, and on no
other, exactly if a range selection that reaches the end of the score covers
all its notes, and another one no note before its anchor. -/
theorem selection_applied_iff (hapi : Documented api score selection place)
    (hfuel : score.segments.length < fuel) :
    AppliesExactly api score selection fuel ↔ score.WalksFit selection := by
  rw [appliesExactly_iff hapi hfuel]
  exact calls_iff selection

theorem foldl_uncolorNote [DecidableEq ν] (calls : List ν) (color : ν → String) (note : ν) :
    calls.foldl uncolorNote color note = if note ∈ calls then "#000000" else color note := by
  induction calls generalizing color with
  | nil => rfl
  | cons call calls ih =>
    rw [List.foldl_cons, ih]
    unfold uncolorNote
    rcases eq_or_ne note call with rfl | hne
    · simp
    · simp [hne]

/-- The start button: if the walks fit, the selected notes become black and
the others keep their colours. -/
theorem uncolorNote_selected [DecidableEq ν] (hapi : Documented api score selection place)
    (hfuel : score.segments.length < fuel) (hfit : score.WalksFit selection) (color : ν → String) :
    ∃ color', applyToNotesInSelection api uncolorNote fuel color = some color' ∧
      (∀ note, score.Selected selection note → color' note = "#000000") ∧
      ∀ note, ¬ score.Selected selection note → color' note = color note := by
  have hselected := (calls_iff selection).mpr hfit
  refine ⟨_, apply_calls hapi hfuel color, ?_, ?_⟩
  · intro note hnote
    rw [foldl_uncolorNote, if_pos ((hselected.mem_iff note).mpr hnote)]
  · intro note hnote
    rw [foldl_uncolorNote, if_neg (mt (hselected.mem_iff note).mp hnote)]

end applied

/-! ### A cursor -/

/-- The cursors of a score, as documented. -/
def cursorApi (score : Score ν) (selection : Option (Range score)) : CursorApi ν (Place ν) where
  nstaves := score.nstaves
  newCursor := ⟨[], 0⟩
  rewind type c :=
    match type, selection with
    | 0, _ => ⟨forward c.track score.segments, c.track⟩
    | 1, some r => ⟨forward (4 * r.firstStaff) (score.segments.drop r.start), 4 * r.firstStaff⟩
    | 2, some r => ⟨score.segments.drop r.stop, 4 * r.lastStaff + 3⟩
    | _, _ => c
  setVoice voice c := ⟨c.rest, 4 * (c.track / 4) + voice⟩
  setStaffIdx staff c := ⟨c.rest, 4 * staff + c.track % 4⟩
  next c := ⟨forward c.track c.rest.tail, c.track⟩
  staffIdx c := c.track / 4
  tick c := (c.rest.head?.map Segment.tick).getD 0
  segment c := !c.rest.isEmpty
  element c := c.rest.head?.bind fun segment => segment.element c.track

theorem cursorApi_documented (score : Score ν) (selection : Option (Range score)) :
    Documented (cursorApi score selection) score selection id where
  nstaves := rfl
  newCursor := rfl
  rewind_zero _ := rfl
  rewind_of_none := by
    rintro rfl c
    exact ⟨rfl, rfl⟩
  rewind_one := by
    rintro r rfl c
    rfl
  rewind_two := by
    rintro r rfl c
    rfl
  setVoice _ _ _ := rfl
  setStaffIdx _ _ _ := rfl
  next _ := rfl
  staffIdx _ := rfl
  segment c := by simp [cursorApi]
  tick := by
    intro c segment rest h
    show (c.rest.head?.map Segment.tick).getD 0 = _
    rw [show c.rest = segment :: rest from h]
    rfl
  element := by
    intro c segment rest h
    show c.rest.head?.bind _ = _
    rw [show c.rest = segment :: rest from h]
    rfl

/-- Two quarter notes on one staff. -/
def twoQuarters : Score ℕ where
  nstaves := 1
  segments := [⟨0, fun track => if track = 0 then some (.chord [1]) else none⟩,
    ⟨480, fun track => if track = 0 then some (.chord [2]) else none⟩]
  ordered := by decide
  nodup := by decide

/-- Two half notes over four quarter notes. -/
def halvesOverQuarters : Score ℕ where
  nstaves := 2
  segments := [⟨0, fun track => if track = 0 then some (.chord [1]) else
      if track = 4 then some (.chord [2]) else none⟩,
    ⟨480, fun track => if track = 4 then some (.chord [3]) else none⟩,
    ⟨960, fun track => if track = 0 then some (.chord [4]) else
      if track = 4 then some (.chord [5]) else none⟩,
    ⟨1440, fun track => if track = 4 then some (.chord [6]) else none⟩]
  ordered := by decide
  nodup := by decide

/-- The first half of the bar, on both staves. -/
def firstHalf : Range halvesOverQuarters where
  start := 0
  stop := 2
  start_lt_stop := by decide
  stop_le := by decide
  firstStaff := 0
  lastStaff := 1
  firstStaff_le := by decide
  lastStaff_lt := by decide

/-- Both staves, from the second quarter note to the third. -/
def middle : Range halvesOverQuarters where
  start := 1
  stop := 3
  start_lt_stop := by decide
  stop_le := by decide
  firstStaff := 0
  lastStaff := 1
  firstStaff_le := by decide
  lastStaff_lt := by decide

/-- A selection of the second quarter, which reaches the end of the score. -/
def lastQuarter : Range twoQuarters where
  start := 1
  stop := 2
  start_lt_stop := by decide
  stop_le := by decide
  firstStaff := 0
  lastStaff := 0
  firstStaff_le := by decide
  lastStaff_lt := by decide

/-- A selection from an element of the first voice on. -/
theorem firstHalf_applied :
    AppliesExactly (cursorApi halvesOverQuarters (some firstHalf)) halvesOverQuarters
      (some firstHalf) 5 := by
  apply (selection_applied_iff (cursorApi_documented _ _) (by decide)).mpr
  apply (Score.walksFit_of_ne (by decide)).mpr
  intro segment h
  cases h

/-- The second of two notes is selected, and both are called.  On two staves,
the second quarter note is selected but not called: the upper staff has no
element there. -/
theorem lastQuarter_not_applied :
    (applyToNotesInSelection (cursorApi twoQuarters (some lastQuarter))
        (fun notes note => notes ++ [note]) 3 [] = some [1, 2] ∧
      ¬ AppliesExactly (cursorApi twoQuarters (some lastQuarter)) twoQuarters
        (some lastQuarter) 3) ∧
    applyToNotesInSelection (cursorApi halvesOverQuarters (some middle))
        (fun notes note => notes ++ [note]) 5 [] = some [4, 5] ∧
      ¬ AppliesExactly (cursorApi halvesOverQuarters (some middle)) halvesOverQuarters
        (some middle) 5 := by
  refine ⟨⟨rfl, ?_⟩, rfl, ?_⟩
  · rw [appliesExactly_iff (cursorApi_documented _ _) (by decide), calls_iff]
    intro h
    rw [Score.walksFit_of_end (by decide)] at h
    -- the first note is outside the selection
    have hcovers := h _ List.mem_cons_self 0 (by decide) (by decide)
    exact absurd hcovers.startTick_le (by decide)
  · rw [appliesExactly_iff (cursorApi_documented _ _) (by decide), calls_iff]
    intro h
    rw [Score.walksFit_of_ne (by decide)] at h
    -- the second quarter note is before the anchor
    have hskipped : halvesOverQuarters.segments.get ⟨1, by decide⟩ ∈ middle.skipped :=
      List.mem_cons_self
    cases h _ hskipped 4 ⟨by decide, by rintro s ⟨⟩; decide, by decide, by decide⟩

end MidiTraining
