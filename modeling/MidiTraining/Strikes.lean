/-
MidiTraining/Strikes.lean

Notes struck together.

The player strikes a note when the score does, and which of the two events
`midi_event` sees first is a matter of chance.  `track_note_on` links the two
notes whichever is the second one: it looks for a note of the pitch that has
no partner, and links both ways.  So a note-on of the score and one of the
instrument may be exchanged (`noteOn_comm`), unless both are of one pitch
that sounds already, and two runs over the same events that differ in the
order of such strikes show the same (`strikes_commute`).
-/
import MidiTraining.Links

namespace MidiTraining

open SwapRemove FaultMachine

/-! ### Two notes -/

section tables

variable {T R : Table} {a b : ℤ}

theorem newLink_snoc (R : Table) (r : Entry) (a : ℤ) :
    newLink (R ++ [r]) a = if r.free a then (R.length : ℤ) else newLink R a := by
  unfold newLink
  rw [lastIdx_snoc]
  rcases r.free a with - | - <;> rfl

/-- The second of two notes finds the first, or misses it, as the first would
the second. -/
theorem fresh_linkTo (h : a ≠ b ∨ (newLink T b = -1 ∧ newLink R a = -1)) (t k u l : ℤ) :
    ({ Entry.fresh a t k with link := newLink R a } : Entry).linkTo b R.length =
      { Entry.fresh a t k with
        link := newLink (R ++ [{ Entry.fresh b u l with link := newLink T b }]) a } := by
  rw [newLink_snoc]
  rcases h with hne | ⟨hT, hR⟩
  · have hfree : ({ Entry.fresh b u l with link := newLink T b } : Entry).free a = false := by
      simp [Entry.free, Entry.fresh, hne.symm]
    rw [Entry.linkTo_of_note_ne hne, hfree]
    rfl
  · rcases eq_or_ne a b with rfl | hne
    · have hfree (x : Table) (hx : newLink x a = -1) (t k : ℤ) :
          ({ Entry.fresh a t k with link := newLink x a } : Entry).free a = true := by
        rw [hx]
        exact Entry.free_iff.mpr ⟨rfl, rfl⟩
      rw [Entry.linkTo_of_free (hfree R hR t k), hfree T hT u l]
      rfl
    · have hfree : ({ Entry.fresh b u l with link := newLink T b } : Entry).free a = false := by
        simp [Entry.free, Entry.fresh, hne.symm]
      rw [Entry.linkTo_of_note_ne hne, hfree]
      rfl

theorem length_noteOn_ref (T R : Table) (a t k : ℤ) : (noteOn T R a t k).2.length = R.length := by
  by_cases hroom : T.length < maxLength
  · rw [noteOn_of_room hroom]
    exact List.length_map _
  · rw [noteOn_of_full hroom]

/-- **Two strikes on the two sides commute.** -/
theorem noteOn_comm (h : a ≠ b ∨ (newLink T b = -1 ∧ newLink R a = -1)) (t k u l : ℤ) :
    noteOn (noteOn T R a t k).2 (noteOn T R a t k).1 b u l =
      ((noteOn (noteOn R T b u l).2 (noteOn R T b u l).1 a t k).2,
        (noteOn (noteOn R T b u l).2 (noteOn R T b u l).1 a t k).1) := by
  by_cases hT : T.length < maxLength
  · by_cases hR : R.length < maxLength
    · have hR' : (R.map (Entry.linkTo a T.length)).length < maxLength := by rwa [List.length_map]
      have hT' : (T.map (Entry.linkTo b R.length)).length < maxLength := by rwa [List.length_map]
      rw [noteOn_of_room hT, noteOn_of_room hR, noteOn_of_room hR', noteOn_of_room hT',
        List.length_map, List.length_map, List.map_append, List.map_append, List.map_singleton,
        List.map_singleton]
      have h' : b ≠ a ∨ (newLink R a = -1 ∧ newLink T b = -1) := h.imp Ne.symm And.symm
      rw [fresh_linkTo h t k u l, fresh_linkTo h' u l t k]
    · -- the other side ignores its note, before and after
      have hR' : ¬ (noteOn T R a t k).2.length < maxLength := by rwa [length_noteOn_ref]
      rw [noteOn_of_full hR, noteOn_of_full hR']
  · have hT' : ¬ (noteOn R T b u l).2.length < maxLength := by rwa [length_noteOn_ref]
    rw [noteOn_of_full hT, noteOn_of_full hT']

end tables

/-! ### The program -/

theorem Tables.put_other (σ : Side) (T R : Table) (tick : Option ℤ) :
    Tables.put σ.other R T tick = .put σ T R tick := by
  cases σ <;> rfl

theorem tablesPass_strike {c₁ c₂ : ℤ} {p : Pass} {σ : Side} {a t k : ℤ}
    (ha : p.action c₁ c₂ = .noteOn σ a t k) (cfg : Config) (s : Tables) :
    tablesPass cfg c₁ c₂ s p =
      .ok (.put σ (noteOn (s.get σ) (s.get σ.other) a t k).1
        (noteOn (s.get σ) (s.get σ.other) a t k).2
        (if p.first then none else s.tick), .silent) := by
  unfold tablesPass
  rw [ha]

/-- **Two passes** that strike notes on the two sides. -/
theorem strikes_comm {c₁ c₂ : ℤ} {p q : Pass} {σ : Side} {a t k b u l : ℤ}
    (hp : p.action c₁ c₂ = .noteOn σ a t k) (hq : q.action c₁ c₂ = .noteOn σ.other b u l)
    (cfg : Config) {s : Tables}
    (h : a ≠ b ∨ (newLink (s.get σ) b = -1 ∧ newLink (s.get σ.other) a = -1)) :
    run (tablesPass cfg c₁ c₂) s [p, q] = run (tablesPass cfg c₁ c₂) s [q, p] := by
  rw [run_pair (tablesPass_strike hp cfg s) (tablesPass_strike hq cfg _),
    run_pair (tablesPass_strike hq cfg s) (tablesPass_strike hp cfg _)]
  simp only [Tables.put_other, Tables.get_put, Tables.get_put_other, Tables.put_tick,
    Side.other_other]
  -- both orders forget the tick at the first round of a call
  have htick : (if q.first then none else if p.first then none else s.tick) =
      if p.first then none else if q.first then none else s.tick := by
    rcases p.first with - | - <;> rcases q.first with - | - <;> rfl
  rw [noteOn_comm h t k u l, htick]

/-- The two passes are strikes on the two sides, of different pitches or of
one that is held on neither side. -/
def StruckTogether (c₁ c₂ : ℤ) (past : List Pass) (p q : Pass) : Prop :=
  ∃ σ a t k b u l, p.action c₁ c₂ = .noteOn σ a t k ∧ q.action c₁ c₂ = .noteOn σ.other b u l ∧
    (a ≠ b ∨ ∀ τ, a ∉ (held τ (actions c₁ c₂ past)).live)

/-- A pitch that is not held finds no partner. -/
theorem newLink_of_not_held {cfg : Config} {c₁ c₂ : ℤ} {past : List Pass} {s : Tables}
    {outs : List Output} (h : run (tablesPass cfg c₁ c₂) noTables past = .ok (s, outs)) {σ : Side}
    {a : ℤ} (ha : a ∉ (held σ (actions c₁ c₂ past)).live) : newLink (s.get σ) a = -1 := by
  refine newLink_eq_neg_one_iff.mpr fun r hr => ?_
  by_contra hfree
  apply ha
  rw [← (run_held h σ).mem_iff]
  exact List.mem_map.mpr ⟨r, hr, (Entry.free_iff.mp (Bool.eq_true_of_not_eq_false hfree)).2⟩

/-- **The order of strikes made together does not matter.**  Two runs that
differ in it only show the same and end in the same tables. -/
theorem strikes_commute (cfg : Config) (hbad : cfg.maxBadness ≠ 0) (c₁ c₂ : ℤ)
    (ps qs : List Pass) (h : Relation.ReflTransGen (Exchange (StruckTogether c₁ c₂)) ps qs) :
    ∃ s s' outs, run (midiEventPass cfg) (initial c₁ c₂) ps = .ok (s, outs) ∧
      run (midiEventPass cfg) (initial c₁ c₂) qs = .ok (s', outs) ∧ s.tables = s'.tables := by
  obtain ⟨s, outs, hps⟩ : ∃ s outs, run (midiEventPass cfg) (initial c₁ c₂) ps = .ok (s, outs) :=
    run_ok hbad ps
  have hcomm (past : List Pass) (p q : Pass) (t : Tables) (os : List Output)
      (hpq : StruckTogether c₁ c₂ past p q)
      (hpast : run (tablesPass cfg c₁ c₂) noTables past = .ok (t, os)) :
      run (tablesPass cfg c₁ c₂) t [p, q] = run (tablesPass cfg c₁ c₂) t [q, p] := by
    obtain ⟨σ, a, u, k, b, v, l, hp, hq, hab⟩ := hpq
    refine strikes_comm hp hq cfg ?_
    by_cases hne : a = b
    · obtain rfl := hne
      have hnot := hab.resolve_left fun h => h rfl
      exact Or.inr ⟨newLink_of_not_held hpast (hnot σ), newLink_of_not_held hpast (hnot σ.other)⟩
    · exact Or.inl hne
  have hsame := run_exchange hcomm h
  rw [(run_tables hps).1] at hsame
  obtain ⟨s', hqs, htables⟩ := run_of_tables hsame.symm
  exact ⟨s, s', outs, hps, hqs, htables.symm⟩

/-- The chord, with the instrument first on its lower note. -/
def chordAhead : List Pass :=
  [⟨true, 10, ⟨1, .noteon, 0, 60, 64, 0⟩⟩, ⟨true, 0, ⟨0, .noteon, 0, 60, 64, 0⟩⟩,
    ⟨true, 0, ⟨0, .noteon, 0, 64, 64, 480⟩⟩] ++ chord.drop 3

theorem chordAhead_same : ∃ s s' outs,
    run (midiEventPass ⟨100, 10, 10, 5⟩) (initial 0 0) chord = .ok (s, outs) ∧
      run (midiEventPass ⟨100, 10, 10, 5⟩) (initial 0 0) chordAhead = .ok (s', outs) ∧
        s.tables = s'.tables := by
  apply strikes_commute ⟨100, 10, 10, 5⟩ (by decide) 0 0 chord chordAhead
  -- past the upper note of the score, and then past the lower one
  have hupper : Exchange (StruckTogether 0 0) chord (chord.take 1 ++
      ([⟨true, 10, ⟨1, .noteon, 0, 60, 64, 0⟩⟩, ⟨true, 0, ⟨0, .noteon, 0, 64, 64, 480⟩⟩] ++
        chord.drop 3)) :=
    ⟨chord.take 1, _, _, chord.drop 3, rfl, rfl, .score, _, _, _, _, _, _, rfl, rfl,
      Or.inl (by decide)⟩
  have hlower : Exchange (StruckTogether 0 0) (chord.take 1 ++
      ([⟨true, 10, ⟨1, .noteon, 0, 60, 64, 0⟩⟩, ⟨true, 0, ⟨0, .noteon, 0, 64, 64, 480⟩⟩] ++
        chord.drop 3)) chordAhead :=
    ⟨[], _, _, _, rfl, rfl, .score, _, _, _, _, _, _, rfl, rfl,
      Or.inr fun τ => by cases τ <;> decide⟩
  exact (Relation.ReflTransGen.single hupper).tail hlower

end MidiTraining
