/-
MidiTraining/Safety.lean

Index safety and the irrelevance of dead slots, for every run of the
program: any pitches, repeated strikes, stray note-offs, more notes than the
tables hold.

Links outlive the entries they point to and are used as indices without a
check, so safety cannot come from a link being live.  It comes from the
values that are stored: a link is written once, as a position of a table at
that time, and positions lie below `MAX_LENGTH` (`State.WellFormed`, kept by
every pass).  With it the arrays never leave their bounds
(`run_index_safe`), and they behave as the two lists of their live entries
whatever the dead slots contain (`arrays_refine_lists`).
-/
import MidiTraining.Refine

namespace MidiTraining

open FaultMachine

/-! ### Index safety -/

theorem getcolor_ne_outOfBounds (cfg : Config) (badness : ℤ) :
    getcolor cfg badness ≠ .error .outOfBounds := by
  unfold getcolor
  split <;> simp

theorem sendMessage_ne_outOfBounds (cfg : Config) (side : Side) (badness : ℤ) (tick : Option ℤ)
    (note : ℤ) : sendMessage cfg side badness tick note ≠ .error .outOfBounds := by
  rw [sendMessage_eq]
  split
  · intro h
    rcases hcol : getcolor cfg (side.clamp cfg badness) with e | color
    · rw [hcol] at h
      cases h
      exact getcolor_ne_outOfBounds cfg _ hcol
    · rw [hcol] at h
      cases h
  · intro h
    cases h

/-- A pass over tables indexes nothing. -/
theorem tablesPass_ne_outOfBounds (cfg : Config) (c₁ c₂ : ℤ) (t : Tables) (p : Pass) :
    tablesPass cfg c₁ c₂ t p ≠ .error .outOfBounds := by
  unfold tablesPass
  rcases p.action c₁ c₂ with ⟨side, note, t', k⟩ | ⟨side, note, t'⟩ | -
  · simp
  · simp only
    split
    · simp
    · rename_i e he
      intro h
      cases h
      exact sendMessage_ne_outOfBounds _ _ _ _ _ he
  · simp

/-- The live links of a well-formed table, read from the array. -/
theorem link_bounds {a : MIDItrack} (hr : a.InRange) (hl : WellLinked a.entries)
    (i : Fin maxLength) (hi : (i : ℤ) < a.length) :
    -1 ≤ a.link i ∧ a.link i ≤ (maxLength : ℤ) - 1 := by
  have hH := Holds.of_inRange hr
  have hlt : (i : ℕ) < a.entries.length := by
    have := hH.length
    omega
  have hmem : a.entry i ∈ a.entries := by
    obtain ⟨_, hentry⟩ := hH.entry (List.getElem?_eq_getElem hlt)
    rw [hentry]
    exact List.getElem_mem hlt
  obtain ⟨h1, h2⟩ := hl _ hmem
  have h1' : -1 ≤ a.link i := h1
  have h2' : a.link i < maxLength := h2
  omega

/-- **Index safety over all runs.**  No run evaluates an index outside an
array, and in every state reached the lengths lie in `0 … MAX_LENGTH` and
the live links in `-1 … MAX_LENGTH - 1`. -/
theorem run_index_safe (cfg : Config) (c₁ c₂ : ℤ) (ps : List Pass) :
    run (midiEventPass cfg) (initial c₁ c₂) ps ≠ .error .outOfBounds ∧
      ∀ s outs, run (midiEventPass cfg) (initial c₁ c₂) ps = .ok (s, outs) →
        ∀ a, a = s.track1 ∨ a = s.track2 →
          0 ≤ a.length ∧ a.length ≤ maxLength ∧
            ∀ i : Fin maxLength, (i : ℤ) < a.length →
              -1 ≤ a.link i ∧ a.link i ≤ (maxLength : ℤ) - 1 := by
  constructor
  · have hagree := run_represents cfg (initial_represents c₁ c₂) ps
    intro h
    rw [h] at hagree
    rcases e : run (tablesPass cfg c₁ c₂) noTables ps with err | ⟨t, outs⟩
    · rw [e] at hagree
      obtain rfl : Fault.outOfBounds = err := hagree
      exact run_ne_error (tablesPass_ne_outOfBounds cfg c₁ c₂) noTables ps e
    · rw [e] at hagree
      exact hagree.elim
  · intro s outs h a ha
    obtain ⟨-, hwf⟩ := run_tables h
    rcases ha with rfl | rfl
    · exact ⟨hwf.range1.1, hwf.range1.2, link_bounds hwf.range1 hwf.links1⟩
    · exact ⟨hwf.range2.1, hwf.range2.2, link_bounds hwf.range2 hwf.links2⟩

/-! ### Dead slots -/

/-- Two tables agree on their length and on every live slot. -/
structure MIDItrack.SameLive (a b : MIDItrack) : Prop where
  length : a.length = b.length
  channel : a.channel = b.channel
  live : ∀ i : Fin maxLength, (i : ℤ) < a.length → a.entry i = b.entry i

/-- Two states agree on everything but the slots at or above the lengths. -/
structure State.SameLive (s s' : State) : Prop where
  track1 : s.track1.SameLive s'.track1
  track2 : s.track2.SameLive s'.track2
  tick : s.tick = s'.tick

theorem MIDItrack.SameLive.entries {a b : MIDItrack} (h : a.SameLive b) (hr : a.InRange) :
    a.entries = b.entries := by
  apply List.ext_getElem?
  intro i
  rw [MIDItrack.entries, MIDItrack.entries, List.getElem?_take, List.getElem?_take, ← h.length]
  by_cases hi : i < a.length.toNat
  · have hmax : i < maxLength := by
      have := hr.2
      omega
    rw [if_pos hi, if_pos hi, MIDItrack.getElem?_slots a hmax, MIDItrack.getElem?_slots b hmax,
      h.live ⟨i, hmax⟩ (by simp only; omega)]
  · rw [if_neg hi, if_neg hi]

theorem MIDItrack.sameLive_of_entries {a b : MIDItrack} (ha : a.InRange) (hb : b.InRange)
    (hch : a.channel = b.channel) (h : a.entries = b.entries) : a.SameLive b where
  length := by
    have h1 := (Holds.of_inRange ha).length
    have h2 := (Holds.of_inRange hb).length
    rw [h1, h2, h]
  channel := hch
  live := by
    intro i hi
    have hlt : (i : ℕ) < a.entries.length := by
      have := (Holds.of_inRange ha).length
      omega
    obtain ⟨_, h1⟩ := (Holds.of_inRange ha).entry (List.getElem?_eq_getElem hlt)
    have hget : b.entries[(i : ℕ)]? = some a.entries[(i : ℕ)] := by
      rw [← h]
      exact List.getElem?_eq_getElem hlt
    obtain ⟨_, h2⟩ := (Holds.of_inRange hb).entry hget
    exact h1.trans h2.symm

theorem State.SameLive.wellFormed {s s' : State} (h : s.SameLive s') (hwf : s.WellFormed) :
    s'.WellFormed where
  range1 := ⟨h.track1.length ▸ hwf.range1.1, h.track1.length ▸ hwf.range1.2⟩
  range2 := ⟨h.track2.length ▸ hwf.range2.1, h.track2.length ▸ hwf.range2.2⟩
  links1 := h.track1.entries hwf.range1 ▸ hwf.links1
  links2 := h.track2.entries hwf.range2 ▸ hwf.links2

theorem Represents.sameLive {c₁ c₂ : ℤ} {s s' : State} {t : Tables} (h : Represents c₁ c₂ s t)
    (h' : Represents c₁ c₂ s' t) : s.SameLive s' where
  track1 := MIDItrack.sameLive_of_entries h.wf.range1 h'.wf.range1
    (h.channel1.trans h'.channel1.symm)
    (congrArg Tables.score (h.tables.trans h'.tables.symm))
  track2 := MIDItrack.sameLive_of_entries h.wf.range2 h'.wf.range2
    (h.channel2.trans h'.channel2.symm)
    (congrArg Tables.inst (h.tables.trans h'.tables.symm))
  tick := congrArg Tables.tick (h.tables.trans h'.tables.symm)

/-- Two machines that agree with a third one agree with each other. -/
theorem agree_sameLive {c₁ c₂ : ℤ} {ο : Type*} {x y : Except Fault (State × ο)}
    {z : Except Fault (Tables × ο)} (h : Agree (Represents c₁ c₂) x z)
    (h' : Agree (Represents c₁ c₂) y z) : Agree State.SameLive x y := by
  rcases z with e | ⟨t, o⟩ <;> rcases x with e₁ | ⟨s₁, o₁⟩ <;> rcases y with e₂ | ⟨s₂, o₂⟩
  · exact h.trans h'.symm
  · exact h'.elim
  · exact h.elim
  · exact h.elim
  · exact h.elim
  · exact h.elim
  · exact h'.elim
  · exact ⟨h.1.sameLive h'.1, h.2.trans h'.2.symm⟩

/-- **The fixed arrays refine plain lists.**  From empty tables with any
content of the slots, the program shows what the lists of live entries show
and holds exactly them at the end, in a well-formed state; and two
well-formed states that differ in dead slots only fault alike and show the
same for every sequence of passes. -/
theorem arrays_refine_lists (cfg : Config) :
    (∀ s : State, s.track1.length = 0 → s.track2.length = 0 → ∀ ps,
      Agree (fun s' t => s'.WellFormed ∧ s'.tables = t) (run (midiEventPass cfg) s ps)
        (run (tablesPass cfg s.track1.channel s.track2.channel) ⟨[], [], s.tick⟩ ps)) ∧
    ∀ s s' : State, s.WellFormed → s.SameLive s' → ∀ ps,
      Agree State.SameLive (run (midiEventPass cfg) s ps) (run (midiEventPass cfg) s' ps) := by
  constructor
  · intro s h1 h2 ps
    have hnil (a : MIDItrack) (ha : a.length = 0) : Holds a [] :=
      ⟨by simpa using ha, by simp, by simp [MIDItrack.entries, ha]⟩
    have hlinks : WellLinked [] := by
      intro e he
      simp at he
    have hrep := represents_of_holds (hnil _ h1) (hnil _ h2) hlinks hlinks s.tick
    have hagree := run_represents cfg hrep ps
    rcases e : run (midiEventPass cfg) s ps with err | ⟨s', outs⟩ <;>
      rcases e' : run (tablesPass cfg s.track1.channel s.track2.channel) ⟨[], [], s.tick⟩ ps
        with err' | ⟨t', outs'⟩ <;> rw [e, e'] at hagree
    · exact hagree
    · exact hagree.elim
    · exact hagree.elim
    · exact ⟨⟨hagree.1.wf, hagree.1.tables⟩, hagree.2⟩
  · intro s s' hwf hsame ps
    have hrep : Represents s.track1.channel s.track2.channel s s.tables := ⟨hwf, rfl, rfl, rfl⟩
    have hrep' : Represents s.track1.channel s.track2.channel s' s.tables := by
      refine ⟨hsame.wellFormed hwf, hsame.track1.channel.symm, hsame.track2.channel.symm, ?_⟩
      rw [State.tables, State.tables, hsame.track1.entries hwf.range1,
        hsame.track2.entries hwf.range2, hsame.tick]
    exact agree_sameLive (run_represents cfg hrep ps) (run_represents cfg hrep' ps)

end MidiTraining
