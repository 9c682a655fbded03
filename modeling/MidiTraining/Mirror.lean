/-
MidiTraining/Mirror.lean

The two ports are treated alike.

`track_note_on` and `track_note_off` serve both ports with exchanged tables;
the argument `is_inst` only decides which of the two end weights is used and
which tick is returned.  So a run with its ports exchanged, under the
exchanged end weights, returns the same results, and its tables are those of
the run, exchanged, but for the ticks (`mirrored_run`): those of the
instrument are not read from its events.  What remains of an entry without
its ticks is its `timing`.

`MidiTraining.Grading` uses the same fact for one pair (`weightedDelay_score`
and `weightedDelay_inst`); here it is one about all runs, with links to the
wrong note or to none.
-/
import MidiTraining.Sounding

namespace MidiTraining

open SwapRemove FaultMachine

/-! ### Exchanging the ports -/

/-- The weights of a late and an early release, exchanged. -/
def Config.mirror (cfg : Config) : Config :=
  { cfg with weightEndp := cfg.weightEndn, weightEndn := cfg.weightEndp }

/-- The pass through the other port. -/
def Pass.mirror (p : Pass) : Pass :=
  { p with ev := { p.ev with
      port := if p.ev.port = 0 then 1 else if p.ev.port = 1 then 0 else p.ev.port } }

/-- An entry without its ticks. -/
def Entry.timing (e : Entry) : Entry := { e with tick := 0, ltick := -1 }

/-- The tables of `t` are those of `s` exchanged, but for the ticks. -/
def Mirrors (s t : Tables) : Prop :=
  ∀ σ, (s.get σ).map Entry.timing = (t.get σ.other).map Entry.timing

theorem Side.isInst_other (σ : Side) : σ.other.isInst = -σ.isInst := by cases σ <;> rfl

theorem mirrors_put {side : Side} {T R T' R' : Table}
    (hT : T.map Entry.timing = T'.map Entry.timing)
    (hR : R.map Entry.timing = R'.map Entry.timing) (tick tick' : Option ℤ) :
    Mirrors (.put side T R tick) (.put side.other T' R' tick') := by
  intro σ
  cases side <;> cases σ <;> first | exact hT | exact hR

/-- The action of a mirrored pass: the same on the other side, but for the
tick. -/
theorem Pass.mirror_action (c₁ c₂ : ℤ) (p : Pass) :
    (∃ σ q k k', p.action c₁ c₂ = .noteOn σ q p.time k ∧
      p.mirror.action c₂ c₁ = .noteOn σ.other q p.time k') ∨
    (∃ σ q, p.action c₁ c₂ = .noteOff σ q p.time ∧
      p.mirror.action c₂ c₁ = .noteOff σ.other q p.time) ∨
    (p.action c₁ c₂ = .ignored ∧ p.mirror.action c₂ c₁ = .ignored) := by
  have hon (σ : Side) (k k' : ℤ) :
      (∃ q, p.actionOn σ k = .noteOn σ q p.time k ∧
        p.mirror.actionOn σ.other k' = .noteOn σ.other q p.time k') ∨
      (∃ q, p.actionOn σ k = .noteOff σ q p.time ∧
        p.mirror.actionOn σ.other k' = .noteOff σ.other q p.time) ∨
      (p.actionOn σ k = .ignored ∧ p.mirror.actionOn σ.other k' = .ignored) := by
    have hoff : p.mirror.ev.isNoteOff = p.ev.isNoteOff := rfl
    have htype : p.mirror.ev.type = p.ev.type := rfl
    rw [Pass.actionOn, Pass.actionOn, hoff, htype]
    split
    · exact Or.inr (Or.inl ⟨_, rfl, rfl⟩)
    · split
      · exact Or.inl ⟨_, rfl, rfl⟩
      · exact Or.inr (Or.inr ⟨rfl, rfl⟩)
  have hchannel : p.mirror.ev.channel = p.ev.channel := rfl
  by_cases hport0 : p.ev.port = 0
  · have hport : p.mirror.ev.port = 1 := if_pos hport0
    rw [Pass.action, Pass.action, hchannel, hport, if_pos hport0, if_neg one_ne_zero, if_pos rfl]
    by_cases hch : p.ev.channel = c₁
    · rw [if_pos hch, if_pos hch]
      rcases hon .score p.ev.tick 0 with ⟨q, h, h'⟩ | ⟨q, h, h'⟩ | h
      · exact Or.inl ⟨_, q, _, _, h, h'⟩
      · exact Or.inr (Or.inl ⟨_, q, h, h'⟩)
      · exact Or.inr (Or.inr h)
    · rw [if_neg hch, if_neg hch]
      exact Or.inr (Or.inr ⟨rfl, rfl⟩)
  · by_cases hport1 : p.ev.port = 1
    · have hport : p.mirror.ev.port = 0 := (if_neg hport0).trans (if_pos hport1)
      rw [Pass.action, Pass.action, hchannel, hport, if_neg hport0, if_pos hport1, if_pos rfl]
      by_cases hch : p.ev.channel = c₂
      · rw [if_pos hch, if_pos hch]
        rcases hon .inst 0 p.mirror.ev.tick with ⟨q, h, h'⟩ | ⟨q, h, h'⟩ | h
        · exact Or.inl ⟨_, q, _, _, h, h'⟩
        · exact Or.inr (Or.inl ⟨_, q, h, h'⟩)
        · exact Or.inr (Or.inr h)
      · rw [if_neg hch, if_neg hch]
        exact Or.inr (Or.inr ⟨rfl, rfl⟩)
    · have hport : p.mirror.ev.port = p.ev.port := (if_neg hport0).trans (if_neg hport1)
      rw [Pass.action, Pass.action, hport, if_neg hport0, if_neg hport1, if_neg hport0,
        if_neg hport1]
      exact Or.inr (Or.inr ⟨rfl, rfl⟩)

/-! ### Tables without ticks -/

section timing

variable {e : Entry}

theorem Entry.timing_hasNote (p : ℤ) (e : Entry) : e.timing.hasNote p = e.hasNote p := rfl

theorem Entry.timing_free (p : ℤ) (e : Entry) : e.timing.free p = e.free p := rfl

theorem Entry.timing_linkTo (p k : ℤ) (e : Entry) :
    (e.linkTo p k).timing = e.timing.linkTo p k := by
  rcases hfree : e.free p with - | -
  · rw [Entry.linkTo_of_not_free hfree, Entry.linkTo_of_not_free (by rw [e.timing_free, hfree])]
  · rw [Entry.linkTo_of_free hfree, Entry.linkTo_of_free (by rw [e.timing_free, hfree])]
    rfl

theorem newLink_timing (R : Table) (note : ℤ) :
    newLink (R.map Entry.timing) note = newLink R note := by
  rw [newLink, newLink, lastIdx_map (q := Entry.free note) fun e _ => e.timing_free note]

theorem noteOn_timing (T R : Table) (note t k : ℤ) :
    (noteOn T R note t k).1.map Entry.timing =
        (noteOn (T.map Entry.timing) (R.map Entry.timing) note t 0).1 ∧
      (noteOn T R note t k).2.map Entry.timing =
        (noteOn (T.map Entry.timing) (R.map Entry.timing) note t 0).2 := by
  by_cases hroom : T.length < maxLength
  · have hroom' : (T.map Entry.timing).length < maxLength := by rwa [List.length_map]
    rw [noteOn_of_room hroom, noteOn_of_room hroom', newLink_timing, List.length_map]
    constructor
    · rw [List.map_append]
      rfl
    · rw [List.map_map, List.map_map]
      exact List.map_congr_left fun r _ => r.timing_linkTo note T.length
  · have hfull : ¬ (T.map Entry.timing).length < maxLength := by rwa [List.length_map]
    rw [noteOn_of_full hroom, noteOn_of_full hfull]
    exact ⟨rfl, rfl⟩

/-- The delay of a pair, seen from the other side. -/
theorem weightedDelay_mirror (cfg : Config) (side : Side) (t start lstart lend : ℤ) :
    weightedDelay cfg.mirror side.other.isInst t start lstart lend =
      weightedDelay cfg side.isInst t start lstart lend := by
  have hstart : cfg.mirror.weightStart = cfg.weightStart := rfl
  have hendp : cfg.mirror.weightEndp = cfg.weightEndn := rfl
  have hendn : cfg.mirror.weightEndn = cfg.weightEndp := rfl
  rw [weightedDelay, weightedDelay, side.isInst_other, Int.neg_mul, hstart, hendp, hendn]
  rcases lt_trichotomy (side.isInst * (t - lend)) 0 with h | h | h
  · rw [if_pos (by omega), if_neg (by omega)]
  · -- the two notes end at the same time, and no end weight counts
    have hzero : t - lend = 0 := by
      cases side with
      | score =>
        rw [Side.isInst] at h
        omega
      | inst =>
        rw [Side.isInst] at h
        omega
    simp only [hzero, abs_zero, mul_zero, ite_self]
  · rw [if_neg (by omega), if_pos h]

/-- The branch on the link does not tell the sides apart. -/
theorem gradeEntry_mirror (cfg : Config) (side : Side) (R : Table) (t : ℤ) (e : Entry) :
    gradeEntry cfg.mirror R t side.other.isInst e = gradeEntry cfg R t side.isInst e := by
  rw [gradeEntry, gradeEntry, weightedDelay_mirror]

theorem gradeEntry_timing (cfg : Config) (isInst : ℤ) (R : Table) (t : ℤ) (e : Entry) :
    (gradeEntry cfg (R.map Entry.timing) t isInst e.timing).1 = (gradeEntry cfg R t isInst e).1 ∧
      (gradeEntry cfg (R.map Entry.timing) t isInst e.timing).2.map Entry.timing =
        (gradeEntry cfg R t isInst e).2.map Entry.timing := by
  have hidem : (R.map Entry.timing).map Entry.timing = R.map Entry.timing := by
    rw [List.map_map]
    rfl
  rcases e.trichotomy with he | he | he
  · have he' : ¬ e.timing.link > -1 := he
    rw [gradeEntry_of_unlinked _ _ _ _ he, gradeEntry_of_unlinked _ _ _ _ he']
    exact ⟨rfl, hidem⟩
  · have he' : e.timing.Answered := he
    rw [gradeEntry_of_answered _ _ _ _ he, gradeEntry_of_answered _ _ _ _ he']
    exact ⟨rfl, hidem⟩
  · have he' : e.timing.Waiting := he
    rw [gradeEntry_of_waiting _ _ _ _ he, gradeEntry_of_waiting _ _ _ _ he']
    refine ⟨rfl, ?_⟩
    -- the starts and ends that are written are the same
    have hmap (x : Entry) (hx : x.timing = e.timing) (Q : Table) (k : ℕ) :
        (Q.modify k (x.receive t)).map Entry.timing =
          (Q.map Entry.timing).modify k fun r => (e.receive t r).timing := by
      refine map_modify (fun r => ?_) Q k
      have hstart : x.start = e.start := by
        show x.timing.start = e.timing.start
        rw [hx]
      rw [Entry.timing, Entry.timing, Entry.receive, Entry.receive, hstart]
      rfl
    show List.map _ (List.modify _ e.link.toNat (e.timing.receive t)) = _
    rw [hmap e.timing rfl, hmap e rfl, hidem]

/-- What a note-off returns and leaves, as far as the two sides share it. -/
def NoteOff.timing (r : NoteOff Table) : ℤ × Table × Table :=
  (r.badness, r.track.map Entry.timing, r.ref.map Entry.timing)

/-- **A note-off on one side is one on the other side, mirrored.** -/
theorem noteOff_mirror (cfg : Config) (side : Side) {T R T' R' : Table}
    (hT : T.map Entry.timing = T'.map Entry.timing)
    (hR : R.map Entry.timing = R'.map Entry.timing) (note t : ℤ) :
    (noteOff cfg.mirror T' R' note t side.other.isInst).timing =
      (noteOff cfg T R note t side.isInst).timing := by
  have hfind (T : Table) : firstAt (Entry.hasNote note) (T.map Entry.timing) =
      (firstAt (Entry.hasNote note) T).map fun x => (x.1, x.2.timing) :=
    firstAt_map (fun e : Entry => e.timing_hasNote note) T
  have hidem (T : Table) : (T.map Entry.timing).map Entry.timing = T.map Entry.timing := by
    rw [List.map_map]
    rfl
  -- both are the note-off of the tables without ticks
  have htiming (c : Config) (i : ℤ) (T R : Table) : (noteOff c T R note t i).timing =
      (noteOff c (T.map Entry.timing) (R.map Entry.timing) note t i).timing := by
    rw [noteOff, noteOff, hfind]
    rcases firstAt (Entry.hasNote note) T with - | ⟨n, e⟩
    · simp only [Option.map_none, NoteOff.timing, hidem]
    · obtain ⟨hbad, href⟩ := gradeEntry_timing c i R t e
      simp only [Option.map_some, NoteOff.timing, swapRemove_map, hidem, hbad, href]
  rw [htiming, htiming cfg, hT, hR, noteOff, noteOff]
  rcases firstAt (Entry.hasNote note) (T'.map Entry.timing) with - | ⟨n, e⟩
  · rfl
  · simp only [gradeEntry_mirror]
    rfl

/-- A note-on on one side is one on the other side, mirrored. -/
theorem noteOn_mirror {T R T' R' : Table} (hT : T.map Entry.timing = T'.map Entry.timing)
    (hR : R.map Entry.timing = R'.map Entry.timing) (note t k k' : ℤ) :
    (noteOn T R note t k).1.map Entry.timing = (noteOn T' R' note t k').1.map Entry.timing ∧
      (noteOn T R note t k).2.map Entry.timing = (noteOn T' R' note t k').2.map Entry.timing := by
  obtain ⟨h₁, h₂⟩ := noteOn_timing T R note t k
  obtain ⟨h₁', h₂'⟩ := noteOn_timing T' R' note t k'
  rw [h₁, h₁', h₂, h₂', hT, hR]
  exact ⟨rfl, rfl⟩

end timing

/-! ### The program -/

/-- **One pass**, and the mirrored one on mirrored tables. -/
theorem pass_mirror {cfg : Config} (hbad : cfg.maxBadness ≠ 0) (c₁ c₂ : ℤ) {s t : Tables}
    (h : Mirrors s t) (p : Pass) :
    ∃ s' o t' o', tablesPass cfg c₁ c₂ s p = .ok (s', o) ∧
      tablesPass cfg.mirror c₂ c₁ t p.mirror = .ok (t', o') ∧ Mirrors s' t' ∧
        o.badness = o'.badness := by
  obtain ⟨s', o, hs⟩ := tablesPass_total hbad c₁ c₂ s p
  have hbad' : cfg.mirror.maxBadness ≠ 0 := hbad
  obtain ⟨t', o', ht⟩ := tablesPass_total hbad' c₂ c₁ t p.mirror
  refine ⟨s', o, t', o', hs, ht, ?_⟩
  have hother (σ : Side) :
      (s.get σ.other).map Entry.timing = (t.get σ.other.other).map Entry.timing := h σ.other
  rcases p.mirror_action c₁ c₂ with ⟨σ, q, k, k', ha, ha'⟩ | ⟨σ, q, ha, ha'⟩ | ⟨ha, ha'⟩
  · obtain ⟨rfl, tick, rfl⟩ := tablesPass_of_noteOn hs ha
    obtain ⟨rfl, tick', rfl⟩ := tablesPass_of_noteOn ht ha'
    obtain ⟨hT, hR⟩ := noteOn_mirror (h σ) (hother σ) q p.time k k'
    exact ⟨mirrors_put hT hR _ _, rfl⟩
  · obtain ⟨tick, sent, rfl, -, rfl⟩ := tablesPass_of_noteOff hs ha
    obtain ⟨tick', sent', rfl, -, rfl⟩ := tablesPass_of_noteOff ht ha'
    have hoff := noteOff_mirror cfg σ (h σ) (hother σ) q p.time
    obtain ⟨hb, htables⟩ := Prod.mk.inj hoff
    obtain ⟨hT, hR⟩ := Prod.mk.inj htables
    exact ⟨mirrors_put hT.symm hR.symm _ _, by rw [hb]⟩
  · obtain ⟨hsame, rfl⟩ := tablesPass_of_ignored hs ha
    obtain ⟨hsame', rfl⟩ := tablesPass_of_ignored ht ha'
    refine ⟨fun σ => ?_, rfl⟩
    rw [hsame, hsame']
    exact h σ

/-- **The two ports are treated alike.**  The run with its ports exchanged,
under the exchanged end weights, returns the same results and ends with the
exchanged tables, but for the ticks, if `MAX_BADNESS` is not zero. -/
theorem mirrored_run (cfg : Config) (hbad : cfg.maxBadness ≠ 0) (c₁ c₂ : ℤ) (ps : List Pass) :
    ∃ s outs s' outs', run (midiEventPass cfg) (initial c₁ c₂) ps = .ok (s, outs) ∧
      run (midiEventPass cfg.mirror) (initial c₂ c₁) (ps.map Pass.mirror) = .ok (s', outs') ∧
      Mirrors s.tables s'.tables ∧ outs.map Output.badness = outs'.map Output.badness := by
  have hstep : ∀ p ∈ ps, ∀ s t, Mirrors s t → ∃ s' o t' o',
      tablesPass cfg c₁ c₂ s p = .ok (s', o) ∧
        tablesPass cfg.mirror c₂ c₁ t p.mirror = .ok (t', o') ∧ Mirrors s' t' ∧
          o.badness = o'.badness :=
    fun p _ s t hst => pass_mirror hbad c₁ c₂ hst p
  have hinit : Mirrors noTables noTables := fun σ => by rw [noTables_get, noTables_get]
  obtain ⟨t, outs, t', outs', ht, ht', hmirrors, hbadness⟩ := run_lockstep Pass.mirror hstep hinit
  obtain ⟨s, hs, rfl⟩ := run_of_tables ht
  obtain ⟨s', hs', rfl⟩ := run_of_tables ht'
  exact ⟨s, outs, s', outs', hs, hs', hmirrors, map_eq_of_forall₂ (fun _ _ h => h) hbadness⟩

/-- The chord, played by the score and written for the instrument. -/
theorem chord_mirrored : ∃ s outs s' outs',
    run (midiEventPass ⟨100, 10, 10, 5⟩) (initial 0 0) chord = .ok (s, outs) ∧
      run (midiEventPass ⟨100, 10, 5, 10⟩) (initial 0 0) (chord.map Pass.mirror) =
        .ok (s', outs') ∧
      Mirrors s.tables s'.tables ∧ outs.map Output.badness = outs'.map Output.badness :=
  mirrored_run ⟨100, 10, 10, 5⟩ (by decide) 0 0 chord

end MidiTraining
