/-
MidiTraining/Shift.lean

Only relative time matters.

The times of an entry double as flags: `lstart` and `lend` are `-1` until the
partner's end is recorded, and `lend > -1` is the test for it.  Moving a run
in time therefore moves the start of every entry, and the two recorded times
of exactly the entries that have them (`Entry.shift`).  Every operation on
tables commutes with this map as long as the times stored are not negative,
also the writes through stale links; differences of recorded times are all
that is ever graded (`weightedDelay_shift`).
-/
import MidiTraining.Sounding

namespace MidiTraining

open SwapRemove FaultMachine

/-- Move a pass in time. -/
def Pass.shift (d : ℤ) (p : Pass) : Pass := { p with time := p.time + d }

/-- Move what a pass asks for in time. -/
def Action.shift (d : ℤ) : Action → Action
  | .noteOn side note t tick => .noteOn side note (t + d) tick
  | .noteOff side note t => .noteOff side note (t + d)
  | .ignored => .ignored

/-- Move what an entry records in time: its start, and what it knows of its
partner. -/
def Entry.shift (d : ℤ) (e : Entry) : Entry :=
  if e.lend > -1 then
    { e with start := e.start + d, lstart := e.lstart + d, lend := e.lend + d }
  else { e with start := e.start + d }

/-- Move both tables in time. -/
def Tables.shift (d : ℤ) (s : Tables) : Tables where
  score := s.score.map (Entry.shift d)
  inst := s.inst.map (Entry.shift d)
  tick := s.tick

@[simp] theorem Tables.shift_get (d : ℤ) (s : Tables) (σ : Side) :
    (s.shift d).get σ = (s.get σ).map (Entry.shift d) := by
  cases σ <;> rfl

@[simp] theorem Tables.shift_tick (d : ℤ) (s : Tables) : (s.shift d).tick = s.tick := rfl

theorem Tables.shift_put (d : ℤ) (side : Side) (track ref : Table) (tick : Option ℤ) :
    (Tables.put side track ref tick).shift d =
      Tables.put side (track.map (Entry.shift d)) (ref.map (Entry.shift d)) tick := by
  cases side <;> rfl

section entries

variable {d : ℤ} (hd : 0 ≤ d) (e : Entry)

@[simp] theorem Entry.shift_note : (e.shift d).note = e.note := by
  unfold Entry.shift; split <;> rfl

@[simp] theorem Entry.shift_start : (e.shift d).start = e.start + d := by
  unfold Entry.shift; split <;> rfl

@[simp] theorem Entry.shift_tick : (e.shift d).tick = e.tick := by
  unfold Entry.shift; split <;> rfl

@[simp] theorem Entry.shift_link : (e.shift d).link = e.link := by
  unfold Entry.shift; split <;> rfl

@[simp] theorem Entry.shift_ltick : (e.shift d).ltick = e.ltick := by
  unfold Entry.shift; split <;> rfl

include hd in
/-- The flag stays what it is. -/
theorem Entry.shift_lend_iff : (e.shift d).lend > -1 ↔ e.lend > -1 := by
  unfold Entry.shift
  split
  · show e.lend + d > -1 ↔ e.lend > -1
    omega
  · rfl

include hd in
theorem Entry.shift_waiting_iff : (e.shift d).Waiting ↔ e.Waiting := by
  rw [Entry.Waiting, Entry.Waiting, Entry.shift_link, Entry.shift_lend_iff hd]

include hd in
theorem Entry.shift_answered_iff : (e.shift d).Answered ↔ e.Answered := by
  rw [Entry.Answered, Entry.Answered, Entry.shift_link, Entry.shift_lend_iff hd]

theorem Entry.shift_hasNote (p : ℤ) : (e.shift d).hasNote p = e.hasNote p := by
  simp [Entry.hasNote]

theorem Entry.shift_free (p : ℤ) : (e.shift d).free p = e.free p := by
  simp [Entry.free]

theorem Entry.shift_linkTo (p k : ℤ) : (e.linkTo p k).shift d = (e.shift d).linkTo p k := by
  rcases hfree : e.free p with - | -
  · rw [Entry.linkTo_of_not_free hfree, Entry.linkTo_of_not_free (by rw [e.shift_free, hfree])]
  · rw [Entry.linkTo_of_free hfree, Entry.linkTo_of_free (by rw [e.shift_free, hfree])]
    unfold Entry.shift
    split <;> rfl

/-- A new entry knows nothing of a partner. -/
theorem Entry.shift_fresh (note t tick l : ℤ) :
    ({ Entry.fresh note t tick with link := l } : Entry).shift d =
      { Entry.fresh note (t + d) tick with link := l } := rfl

/-- The infos sent carry times that are set. -/
theorem Entry.shift_receive {t : ℤ} (ht : 0 ≤ t) (r : Entry) :
    (e.receive t r).shift d = (e.shift d).receive (t + d) (r.shift d) := by
  have hset : (e.receive t r).lend > -1 := by
    show t > -1
    omega
  rw [Entry.shift, if_pos hset]
  simp [Entry.receive]

/-- **A grade depends on differences of times only.** -/
theorem weightedDelay_shift (cfg : Config) (isInst t : ℤ) {e : Entry} (he : e.Answered) :
    weightedDelay cfg isInst (t + d) (e.shift d).start (e.shift d).lstart (e.shift d).lend =
      weightedDelay cfg isInst t e.start e.lstart e.lend := by
  rw [Entry.shift, if_pos he.2]
  simp only [weightedDelay, add_sub_add_right_eq_sub]

end entries

/-! ### The operations -/

section operations

variable {d : ℤ} (hd : 0 ≤ d) (track ref : Table) (note t : ℤ)

theorem newLink_shift : newLink (ref.map (Entry.shift d)) note = newLink ref note := by
  rw [newLink, newLink, lastIdx_map (q := Entry.free note) fun e _ => e.shift_free note]

theorem noteOn_shift (tick : ℤ) :
    noteOn (track.map (Entry.shift d)) (ref.map (Entry.shift d)) note (t + d) tick =
      ((noteOn track ref note t tick).1.map (Entry.shift d),
        (noteOn track ref note t tick).2.map (Entry.shift d)) := by
  by_cases hroom : track.length < maxLength
  · have hroom' : (track.map (Entry.shift d)).length < maxLength := by rwa [List.length_map]
    rw [noteOn_of_room hroom, noteOn_of_room hroom', newLink_shift, List.length_map,
      List.map_append, List.map_singleton, Entry.shift_fresh, List.map_map, List.map_map]
    refine Prod.ext rfl (List.map_congr_left fun r _ => ?_)
    exact (r.shift_linkTo note track.length).symm
  · have hfull : ¬ (track.map (Entry.shift d)).length < maxLength := by rwa [List.length_map]
    rw [noteOn_of_full hroom, noteOn_of_full hfull]

theorem firstAt_shift : firstAt (Entry.hasNote note) (track.map (Entry.shift d)) =
    (firstAt (Entry.hasNote note) track).map fun x => (x.1, x.2.shift d) :=
  firstAt_map (fun e : Entry => e.shift_hasNote note) track

include hd in
theorem gradeEntry_shift (cfg : Config) (isInst : ℤ) {t : ℤ} (ht : 0 ≤ t) (e : Entry) :
    gradeEntry cfg (ref.map (Entry.shift d)) (t + d) isInst (e.shift d) =
      ((gradeEntry cfg ref t isInst e).1,
        (gradeEntry cfg ref t isInst e).2.map (Entry.shift d)) := by
  rcases e.trichotomy with he | he | he
  · rw [gradeEntry_of_unlinked _ _ _ _ he,
      gradeEntry_of_unlinked _ _ _ _ (by rwa [e.shift_link])]
  · rw [gradeEntry_of_answered _ _ _ _ he,
      gradeEntry_of_answered _ _ _ _ ((e.shift_answered_iff hd).mpr he),
      weightedDelay_shift cfg isInst t he]
  · rw [gradeEntry_of_waiting _ _ _ _ he,
      gradeEntry_of_waiting _ _ _ _ ((e.shift_waiting_iff hd).mpr he), e.shift_link,
      map_modify (e.shift_receive ht)]

include hd in
theorem noteOff_shift (cfg : Config) (isInst : ℤ) {t : ℤ} (ht : 0 ≤ t) :
    noteOff cfg (track.map (Entry.shift d)) (ref.map (Entry.shift d)) note (t + d) isInst =
      ⟨(noteOff cfg track ref note t isInst).badness, (noteOff cfg track ref note t isInst).tick,
        (noteOff cfg track ref note t isInst).track.map (Entry.shift d),
        (noteOff cfg track ref note t isInst).ref.map (Entry.shift d)⟩ := by
  rw [noteOff, firstAt_shift]
  rcases hfind : firstAt (Entry.hasNote note) track with - | ⟨n, e⟩
  · rw [noteOff, hfind]
    rfl
  · rw [noteOff, hfind]
    simp only [Option.map_some, gradeEntry_shift hd ref cfg isInst ht, swapRemove_map]
    simp [tickOf]

end operations

/-! ### The program -/

/-- A pass asks for the same at the later time. -/
theorem Pass.shift_action (c₁ c₂ d : ℤ) (p : Pass) :
    (p.shift d).action c₁ c₂ = (p.action c₁ c₂).shift d := by
  simp only [Pass.action, Pass.actionOn, apply_ite (Action.shift d)]
  rfl

/-- **One pass** on shifted tables: the same output, and shifted tables. -/
theorem pass_shift (cfg : Config) (c₁ c₂ : ℤ) {d : ℤ} (hd : 0 ≤ d) {p : Pass} (ht : 0 ≤ p.time)
    (s : Tables) : Agree (fun s' t' => t' = s'.shift d) (tablesPass cfg c₁ c₂ s p)
      (tablesPass cfg c₁ c₂ (s.shift d) (p.shift d)) := by
  unfold tablesPass
  rw [Pass.shift_action, Tables.shift_tick, show (p.shift d).first = p.first from rfl]
  rcases ha : p.action c₁ c₂ with ⟨side, note, t, k⟩ | ⟨side, note, t⟩ | -
  · simp only [Action.shift, Tables.shift_get, noteOn_shift]
    exact ⟨(Tables.shift_put _ _ _ _ _).symm, rfl⟩
  · obtain rfl := (Pass.of_noteOff ha).2.2
    simp only [Action.shift, Tables.shift_get, noteOff_shift hd _ _ note cfg side.isInst ht]
    rcases sendMessage cfg side _ _ note with e | sent
    · rfl
    · exact ⟨(Tables.shift_put _ _ _ _ _).symm, rfl⟩
  · exact ⟨rfl, rfl⟩

/-- **Only relative time matters.**  A run and the same run `d` later show
the same, results and messages, and end in the same tables but for `d`. -/
theorem shifted_run_shows_same (cfg : Config) (hbad : cfg.maxBadness ≠ 0) (c₁ c₂ : ℤ)
    (ps : List Pass) (htime : ∀ p ∈ ps, 0 ≤ p.time) {d : ℤ} (hd : 0 ≤ d) :
    ∃ s s' outs, run (midiEventPass cfg) (initial c₁ c₂) ps = .ok (s, outs) ∧
      run (midiEventPass cfg) (initial c₁ c₂) (ps.map (Pass.shift d)) = .ok (s', outs) ∧
      s'.tables = s.tables.shift d := by
  obtain ⟨s, outs, hrun⟩ : ∃ s outs, run (midiEventPass cfg) (initial c₁ c₂) ps = .ok (s, outs) :=
    run_ok hbad ps
  have hagree : Agree (fun s' t' : Tables => t' = s'.shift d)
      (run (tablesPass cfg c₁ c₂) noTables ps)
      (run (fun t p => tablesPass cfg c₁ c₂ t (Pass.shift d p)) noTables ps) := by
    refine run_agree_on (fun p hp s t hst => ?_) rfl
    rw [hst]
    exact pass_shift cfg c₁ c₂ hd (htime p hp) s
  obtain ⟨t', ht', hshift⟩ := hagree.ok (run_tables hrun).1
  obtain ⟨s', hs', rfl⟩ := run_of_tables ((run_map (Pass.shift d) noTables ps).trans ht')
  exact ⟨s, s', outs, hrun, hs', hshift⟩

theorem chord_shifted : ∃ s s' outs,
    run (midiEventPass ⟨100, 10, 10, 5⟩) (initial 0 0) chord = .ok (s, outs) ∧
      run (midiEventPass ⟨100, 10, 10, 5⟩) (initial 0 0) (chord.map (Pass.shift 1000)) =
        .ok (s', outs) ∧
      s'.tables = s.tables.shift 1000 :=
  shifted_run_shows_same ⟨100, 10, 10, 5⟩ (by decide) 0 0 chord (by decide) (by decide)

end MidiTraining
