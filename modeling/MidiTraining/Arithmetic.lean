/-
MidiTraining/Arithmetic.lean

The arithmetic of the grading, in 32 bits.

`MidiTraining.Track` computes on exact integers.  Here the expressions that
`track_note_off` and `getcolor` evaluate are checked at every operator: a
value outside the range of `int` is the fault `overflow`.  A checked run
that does not overflow is the exact run (`run32_checks`), so all that is
said about exact runs holds of the program as long as nothing overflows.

When nothing does is a question about the configuration and the largest
clock reading `T` alone (`arithmetic_safe_iff`).  Two delays are weighted
and added; if the times of a run come in any order, both can be as large as
`T`, and if the clock never runs back they are parts of one span of length
`T`.  What reaches `getcolor` is `MAX_BADNESS` or lies between zero and it.
-/
import MidiTraining.Codes
import MidiTraining.Lib.MachineInt

namespace MidiTraining

open SwapRemove FaultMachine MachineInt

/-! ### The checked program -/

/-- What stops the program if its arithmetic is checked. -/
inductive Fault32
  | fault (f : Fault)
  | overflow
  deriving DecidableEq, Repr

/-- A value of type `int`. -/
def int32 (x : ℤ) : Except Fault32 ℤ := check .overflow 32 x

/-- Everything that is not arithmetic. -/
abbrev unchecked {α : Type} (x : Except Fault α) : Except Fault32 α := lift Fault32.fault x

/-- The expressions of `track_note_off` for a note whose partner has ended. -/
def weightedDelay32 (cfg : Config) (isInst t start lstart lend : ℤ) : Except Fault32 ℤ := do
  let badness ← int32 (cfg.weightStart * (← int32 |← int32 (start - lstart)|))
  if (← int32 (isInst * (← int32 (t - lend)))) > 0 then
    int32 (badness + (← int32 (cfg.weightEndp * (← int32 |← int32 (t - lend)|))))
  else
    int32 (badness + (← int32 (cfg.weightEndn * (← int32 |← int32 (t - lend)|))))

/-- `gradeSlot`, checked. -/
def gradeSlot32 (cfg : Config) (track ref : MIDItrack) (t isInst : ℤ) (n : ℕ) :
    Except Fault32 (ℤ × MIDItrack) := do
  if (← unchecked (track.link.read n)) > -1 then
    if (← unchecked (track.lend.read n)) > -1 then
      return (← weightedDelay32 cfg isInst t (← unchecked (track.start.read n))
        (← unchecked (track.lstart.read n)) (← unchecked (track.lend.read n)), ref)
    else
      -- Send infos to linked ref note
      let lstartArr ← unchecked
        (ref.lstart.write (← unchecked (track.link.read n)) (← unchecked (track.start.read n)))
      let lendArr ← unchecked (ref.lend.write (← unchecked (track.link.read n)) t)
      let ltickArr ← unchecked
        (ref.ltick.write (← unchecked (track.link.read n)) (← unchecked (track.tick.read n)))
      return (-2, { ref with lstart := lstartArr, lend := lendArr, ltick := ltickArr })
  else return (-1, ref)

/-- `endSlot`, checked. -/
def endSlot32 (cfg : Config) (track ref : MIDItrack) (t isInst : ℤ) (n : ℕ) :
    Except Fault32 (NoteOff MIDItrack) := do
  let (badness, ref) ← gradeSlot32 cfg track ref t isInst n
  -- Return score tick
  let tick ← if isInst = 1 then unchecked (track.ltick.read n) else unchecked (track.tick.read n)
  let track ← unchecked (removeSlot track n)
  return ⟨badness, some tick, track, ref⟩

/-- `scanOff`, checked. -/
def scanOff32 (cfg : Config) (track ref : MIDItrack) (note t isInst : ℤ) :
    List ℕ → Except Fault32 (NoteOff MIDItrack)
  | [] => .ok ⟨-1, none, track, ref⟩
  | n :: ns => do
      if note = (← unchecked (track.note.read n)) then endSlot32 cfg track ref t isInst n
      else scanOff32 cfg track ref note t isInst ns

/-- `track_note_off`, checked. -/
def trackNoteOff32 (cfg : Config) (track ref : MIDItrack) (note t isInst : ℤ) :
    Except Fault32 (NoteOff MIDItrack) :=
  scanOff32 cfg track ref note t isInst (List.range track.length.toNat)

/-- `getcolor`, checked. -/
def getcolor32 (cfg : Config) (badness : ℤ) : Except Fault32 Color := do
  let scaled ← int32 (10 * badness)
  if cfg.maxBadness = 0 then .error (.fault .divByZero)
  else return colorOf (← int32 (scaled.tdiv cfg.maxBadness))

/-- `sendScore`, checked. -/
def sendScore32 (cfg : Config) (badness : ℤ) (tick : Option ℤ) (note : ℤ) :
    Except Fault32 (List Message) := do
  if badness > -2 then
    let clamped := if badness = -1 ∨ badness > cfg.maxBadness then cfg.maxBadness else badness
    return [⟨tick, note, ← getcolor32 cfg clamped⟩]
  else return []

/-- `sendInst`, checked. -/
def sendInst32 (cfg : Config) (badness : ℤ) (tick : Option ℤ) (note : ℤ) :
    Except Fault32 (List Message) := do
  if badness > -1 then
    let clamped := if badness > cfg.maxBadness then cfg.maxBadness else badness
    return [⟨tick, note, ← getcolor32 cfg clamped⟩]
  else return []

/-- `midiEventPass`, checked. -/
def midiEventPass32 (cfg : Config) (s : State) (p : Pass) : Except Fault32 (State × Output) := do
  let tick := if p.first then none else s.tick
  if p.ev.port = 0 then
    -- Event on track1 (score)
    if p.ev.channel = s.track1.channel then
      if p.ev.isNoteOff then
        let r ← trackNoteOff32 cfg s.track1 s.track2 p.ev.note p.time (-1)
        let tick := r.tick.or tick
        let sent ← sendScore32 cfg r.badness tick p.ev.note
        return (⟨r.track, r.ref, tick⟩, ⟨some r.badness, r.tick, sent⟩)
      else if p.ev.type = .noteon then
        let (track1, track2) ← unchecked
          (trackNoteOn s.track1 s.track2 p.ev.note p.time p.ev.tick)
        return (⟨track1, track2, tick⟩, .silent)
      else return ({ s with tick := tick }, .silent)
    else return ({ s with tick := tick }, .silent)
  else if p.ev.port = 1 then
    -- Event on track2 (instrument)
    if p.ev.channel = s.track2.channel then
      if p.ev.isNoteOff then
        let r ← trackNoteOff32 cfg s.track2 s.track1 p.ev.note p.time 1
        let tick := r.tick.or tick
        let sent ← sendInst32 cfg r.badness tick p.ev.note
        return (⟨r.ref, r.track, tick⟩, ⟨some r.badness, r.tick, sent⟩)
      else if p.ev.type = .noteon then
        let (track2, track1) ← unchecked (trackNoteOn s.track2 s.track1 p.ev.note p.time 0)
        return (⟨track1, track2, tick⟩, .silent)
      else return ({ s with tick := tick }, .silent)
    else return ({ s with tick := tick }, .silent)
  else return ({ s with tick := tick }, .silent)

/-! ### A checked run is the exact run -/

section checks

variable (cfg : Config)

/-- `x` is the exact computation `y`, or overflows. -/
abbrev Exact {α : Type} (x : Except Fault32 α) (y : Except Fault α) : Prop :=
  Checks Fault32.overflow Fault32.fault x y

theorem int32_checks (x : ℤ) : Exact (int32 x) (.ok x) := Checks.check 32 x

theorem weightedDelay32_checks (isInst t start lstart lend : ℤ) :
    Exact (weightedDelay32 cfg isInst t start lstart lend)
      (.ok (weightedDelay cfg isInst t start lstart lend)) := by
  -- the products of the start, then the sign of the delay at the end
  apply (int32_checks _).bind_ok
  apply (int32_checks _).bind_ok
  apply (int32_checks _).bind_ok
  apply (int32_checks _).bind_ok
  apply (int32_checks _).bind_ok
  unfold weightedDelay
  split
  · apply (int32_checks _).bind_ok
    apply (int32_checks _).bind_ok
    apply (int32_checks _).bind_ok
    exact int32_checks _
  · apply (int32_checks _).bind_ok
    apply (int32_checks _).bind_ok
    apply (int32_checks _).bind_ok
    exact int32_checks _

theorem gradeSlot32_checks (track ref : MIDItrack) (t isInst : ℤ) (n : ℕ) :
    Exact (gradeSlot32 cfg track ref t isInst n) (gradeSlot cfg track ref t isInst n) := by
  apply (Checks.lift _).bind
  intro link
  apply Checks.ite _ fun _ => Checks.ok _
  intro _
  apply (Checks.lift _).bind
  intro lend
  apply Checks.ite
  · intro _
    apply (Checks.lift _).bind
    intro start
    apply (Checks.lift _).bind
    intro lstart
    apply (Checks.lift _).bind
    intro lend
    apply (weightedDelay32_checks cfg isInst t start lstart lend).bind_ok
    exact Checks.ok _
  · intro _
    apply (Checks.lift _).bind
    intro link
    apply (Checks.lift _).bind
    intro start
    apply (Checks.lift _).bind
    intro lstartArr
    apply (Checks.lift _).bind
    intro link'
    apply (Checks.lift _).bind
    intro lendArr
    apply (Checks.lift _).bind
    intro link''
    apply (Checks.lift _).bind
    intro tick
    apply (Checks.lift _).bind
    intro ltickArr
    exact Checks.ok _

theorem endSlot32_checks (track ref : MIDItrack) (t isInst : ℤ) (n : ℕ) :
    Exact (endSlot32 cfg track ref t isInst n) (endSlot cfg track ref t isInst n) := by
  apply (gradeSlot32_checks cfg track ref t isInst n).bind
  intro r
  apply Checks.ite
  · intro _
    apply (Checks.lift _).bind
    intro tick
    apply (Checks.lift _).bind
    intro track'
    exact Checks.ok _
  · intro _
    apply (Checks.lift _).bind
    intro tick
    apply (Checks.lift _).bind
    intro track'
    exact Checks.ok _

theorem scanOff32_checks (track ref : MIDItrack) (note t isInst : ℤ) (ns : List ℕ) :
    Exact (scanOff32 cfg track ref note t isInst ns) (scanOff cfg track ref note t isInst ns) := by
  induction ns with
  | nil => exact Checks.ok _
  | cons n ns ih =>
    apply (Checks.lift _).bind
    intro v
    apply Checks.ite
    · intro _
      exact endSlot32_checks cfg track ref t isInst n
    · intro _
      exact ih

theorem getcolor32_checks (badness : ℤ) :
    Exact (getcolor32 cfg badness) (getcolor cfg badness) := by
  apply (int32_checks _).bind_ok
  apply Checks.ite
  · intro _
    exact Checks.lift (.error Fault.divByZero)
  · intro _
    apply (int32_checks _).bind_ok
    exact Checks.ok _

theorem sendScore32_checks (badness : ℤ) (tick : Option ℤ) (note : ℤ) :
    Exact (sendScore32 cfg badness tick note) (sendScore cfg badness tick note) := by
  apply Checks.ite _ fun _ => Checks.ok _
  intro _
  apply (getcolor32_checks cfg _).bind
  intro color
  exact Checks.ok _

theorem sendInst32_checks (badness : ℤ) (tick : Option ℤ) (note : ℤ) :
    Exact (sendInst32 cfg badness tick note) (sendInst cfg badness tick note) := by
  apply Checks.ite _ fun _ => Checks.ok _
  intro _
  apply (getcolor32_checks cfg _).bind
  intro color
  exact Checks.ok _

/-- **One pass** is the exact pass, or overflows. -/
theorem midiEventPass32_checks (s : State) (p : Pass) :
    Exact (midiEventPass32 cfg s p) (midiEventPass cfg s p) := by
  apply Checks.ite
  · -- the score
    intro _
    apply Checks.ite _ fun _ => Checks.ok _
    intro _
    apply Checks.ite
    · intro _
      apply (scanOff32_checks cfg _ _ _ _ _ _).bind
      intro r
      apply (sendScore32_checks cfg _ _ _).bind
      intro sent
      exact Checks.ok _
    · intro _
      apply Checks.ite _ fun _ => Checks.ok _
      intro _
      apply (Checks.lift _).bind
      intro r
      exact Checks.ok _
  · intro _
    apply Checks.ite _ fun _ => Checks.ok _
    -- the instrument
    intro _
    apply Checks.ite _ fun _ => Checks.ok _
    intro _
    apply Checks.ite
    · intro _
      apply (scanOff32_checks cfg _ _ _ _ _ _).bind
      intro r
      apply (sendInst32_checks cfg _ _ _).bind
      intro sent
      exact Checks.ok _
    · intro _
      apply Checks.ite _ fun _ => Checks.ok _
      intro _
      apply (Checks.lift _).bind
      intro r
      exact Checks.ok _

/-- **Every run** is the exact run, or overflows. -/
theorem run32_checks (s : State) (ps : List Pass) :
    Exact (run (midiEventPass32 cfg) s ps) (run (midiEventPass cfg) s ps) :=
  Checks.run (midiEventPass32_checks cfg) s ps

end checks

/-! ### Where it overflows -/

theorem unchecked_ne_overflow {α : Type} (x : Except Fault α) :
    unchecked x ≠ .error .overflow := by
  apply lift_ne_error
  intro f h
  cases h

section noteOff

variable (cfg : Config) {track ref : MIDItrack} {T : Table} {note t isInst : ℤ} {n : ℕ} {e : Entry}

/-- The expressions are evaluated for an answered note only. -/
theorem gradeSlot32_overflow_iff (hT : Holds track T) (hn : T[n]? = some e) :
    gradeSlot32 cfg track ref t isInst n = .error .overflow ↔
      e.Answered ∧ weightedDelay32 cfg isInst t e.start e.lstart e.lend = .error .overflow := by
  obtain ⟨hmax, rfl⟩ := hT.entry hn
  have hread (a : Slots) : unchecked (a.read n) = .ok (a ⟨n, hmax⟩) := by
    rw [Slots.read_of_lt a hmax]
    rfl
  unfold gradeSlot32
  rw [hread]
  show (if track.link ⟨n, hmax⟩ > -1 then _ else _) = _ ↔ _
  by_cases hlink : track.link ⟨n, hmax⟩ > -1
  · rw [if_pos hlink, hread]
    show (if track.lend ⟨n, hmax⟩ > -1 then _ else _) = _ ↔ _
    by_cases hlend : track.lend ⟨n, hmax⟩ > -1
    · rw [if_pos hlend, hread, hread]
      show (weightedDelay32 cfg isInst t (track.start ⟨n, hmax⟩) (track.lstart ⟨n, hmax⟩)
        (track.lend ⟨n, hmax⟩) >>= fun b => .ok (b, ref)) = _ ↔ _
      rw [bind_eq_error_iff fun b hb => by cases hb]
      exact (and_iff_right ⟨hlink, hlend⟩).symm
    · -- the writes through the link
      rw [if_neg hlend]
      refine iff_of_false ?_ fun h => hlend h.1.2
      repeat
        apply bind_ne_error (unchecked_ne_overflow _)
        intro _
      intro h
      cases h
  · rw [if_neg hlink]
    refine iff_of_false ?_ fun h => hlink h.1.1
    intro h
    cases h

/-- The removal computes nothing. -/
theorem endSlot32_overflow_iff (hT : Holds track T) (hn : T[n]? = some e) :
    endSlot32 cfg track ref t isInst n = .error .overflow ↔
      e.Answered ∧ weightedDelay32 cfg isInst t e.start e.lstart e.lend = .error .overflow := by
  rw [← @gradeSlot32_overflow_iff cfg track ref T t isInst n e hT hn]
  apply bind_eq_error_iff
  rintro ⟨b, ref'⟩
  show (if isInst = 1 then _ else _) ≠ _
  split
  all_goals
    apply bind_ne_error (unchecked_ne_overflow _)
    intro tick
    apply bind_ne_error (unchecked_ne_overflow _)
    intro track' h
    cases h

/-- **A checked note-off overflows** exactly if it finds an answered note
whose delays do. -/
theorem trackNoteOff32_overflow_iff (hT : Holds track T) :
    trackNoteOff32 cfg track ref note t isInst = .error .overflow ↔
      ∃ n e, firstAt (Entry.hasNote note) T = some (n, e) ∧ e.Answered ∧
        weightedDelay32 cfg isInst t e.start e.lstart e.lend = .error .overflow := by
  unfold trackNoteOff32
  rw [hT.toNat_length, scan_eq (scanOff32 cfg track ref note t isInst)
    (endSlot32 cfg track ref t isInst)]
  · rcases hfind : firstAt (Entry.hasNote note) T with - | ⟨n, e⟩
    · refine iff_of_false ?_ ?_
      · intro h
        cases h
      · rintro ⟨n, e, h, -⟩
        cases h
    · show endSlot32 cfg track ref t isInst n = _ ↔ _
      rw [endSlot32_overflow_iff cfg hT (firstAt_getElem? hfind)]
      constructor
      · intro h
        exact ⟨n, e, rfl, h⟩
      · rintro ⟨n', e', heq, h⟩
        cases heq
        exact h
  · intro n ns hn
    simp only [scanOff32, hT.read_note hn, lift_ok, bind, Except.bind]

end noteOff

/-! ### Colours -/

/-- The colours can be computed: `MAX_BADNESS` can be divided by and ten times
`MAX_BADNESS` fits. -/
structure Config.ColorsFit (cfg : Config) : Prop where
  ne_zero : cfg.maxBadness ≠ 0
  scaled : InWord 32 (10 * cfg.maxBadness)

section colors

variable {cfg : Config}

theorem int32_of_inWord {x : ℤ} (h : InWord 32 x) : int32 x = .ok x := check_of_inWord h

theorem int32_ne_overflow_iff {x : ℤ} : int32 x ≠ .error .overflow ↔ InWord 32 x := by
  unfold int32 check
  split <;> rename_i h <;> simp [h]

theorem int32_bind_ne_overflow_iff {α : Type} {x : ℤ} {g : ℤ → Except Fault32 α} :
    int32 x >>= g ≠ .error .overflow ↔ InWord 32 x ∧ g x ≠ .error .overflow := by
  by_cases h : InWord 32 x
  · rw [int32_of_inWord h, and_iff_right h]
    rfl
  · have hover : int32 x = .error .overflow := if_neg h
    rw [hover]
    exact iff_of_false (fun hne => hne rfl) fun hand => h hand.1

/-- The quotient of a clamped badness is at most ten. -/
theorem getcolor32_ok (h : cfg.ColorsFit) {badness : ℤ}
    (hb : badness = cfg.maxBadness ∨ 0 ≤ badness ∧ badness ≤ cfg.maxBadness) :
    getcolor32 cfg badness = .ok (colorOf ((10 * badness).tdiv cfg.maxBadness)) := by
  have hscaled : InWord 32 (10 * badness) := by
    rcases hb with rfl | ⟨h0, hle⟩
    · exact h.scaled
    · exact h.scaled.mul_of_le h0 hle
  have hquot : InWord 32 ((10 * badness).tdiv cfg.maxBadness) := by
    rw [inWord_32_iff]
    rcases hb with rfl | ⟨h0, hle⟩
    · rw [Int.mul_tdiv_cancel _ h.ne_zero]
      omega
    · have hpos : 0 < cfg.maxBadness := by
        have := h.ne_zero
        omega
      have hlow : 0 ≤ (10 * badness) / cfg.maxBadness := Int.ediv_nonneg (by omega) hpos.le
      have hhigh : (10 * badness) / cfg.maxBadness ≤ 10 :=
        Int.ediv_le_of_le_mul hpos (by omega)
      rw [Int.tdiv_eq_ediv_of_nonneg (by omega)]
      omega
  unfold getcolor32
  rw [int32_of_inWord hscaled]
  show (if cfg.maxBadness = 0 then _ else _) = _
  rw [if_neg h.ne_zero, int32_of_inWord hquot]
  rfl

theorem colorsFit_of_getcolor32 {color : Color}
    (h : getcolor32 cfg cfg.maxBadness = .ok color) : cfg.ColorsFit := by
  have hscaled : InWord 32 (10 * cfg.maxBadness) := by
    rw [← int32_ne_overflow_iff]
    intro hover
    unfold getcolor32 at h
    rw [hover] at h
    cases h
  refine ⟨?_, hscaled⟩
  intro hzero
  unfold getcolor32 at h
  rw [int32_of_inWord hscaled] at h
  change (if cfg.maxBadness = 0 then _ else _) = _ at h
  rw [if_pos hzero] at h
  cases h

theorem getcolor32_ne_overflow (h : cfg.ColorsFit) {badness : ℤ}
    (hb : badness = cfg.maxBadness ∨ 0 ≤ badness ∧ badness ≤ cfg.maxBadness) :
    getcolor32 cfg badness ≠ .error .overflow := by
  rw [getcolor32_ok h hb]
  intro heq
  cases heq

/-- The message of a clamped badness. -/
theorem message32_ne_overflow (h : cfg.ColorsFit) {badness : ℤ}
    (hb : badness = cfg.maxBadness ∨ 0 ≤ badness ∧ badness ≤ cfg.maxBadness) (tick : Option ℤ)
    (note : ℤ) :
    (do return [⟨tick, note, ← getcolor32 cfg badness⟩] : Except Fault32 (List Message)) ≠
      .error .overflow := by
  apply bind_ne_error (getcolor32_ne_overflow h hb)
  intro color heq
  cases heq

theorem sendScore32_ne_overflow (h : cfg.ColorsFit) (badness : ℤ) (tick : Option ℤ) (note : ℤ) :
    sendScore32 cfg badness tick note ≠ .error .overflow := by
  unfold sendScore32
  split
  · apply message32_ne_overflow h
    split
    · exact Or.inl rfl
    · right
      omega
  · intro heq
    cases heq

theorem sendInst32_ne_overflow (h : cfg.ColorsFit) (badness : ℤ) (tick : Option ℤ) (note : ℤ) :
    sendInst32 cfg badness tick note ≠ .error .overflow := by
  unfold sendInst32
  split
  · apply message32_ne_overflow h
    split
    · exact Or.inl rfl
    · right
      omega
  · intro heq
    cases heq

end colors

/-! ### Delays -/

/-- The weight of a delay at the end. -/
def endWeight (cfg : Config) (delay : ℤ) : ℤ :=
  if delay > 0 then cfg.weightEndp else cfg.weightEndn

/-- The expressions for two delays that are `int`s themselves. -/
theorem weightedDelay32_ne_overflow_iff (cfg : Config) (side : Side) {t start lstart lend : ℤ}
    (hs : |start - lstart| ≤ 2147483647) (he : |t - lend| ≤ 2147483647) :
    weightedDelay32 cfg side.isInst t start lstart lend ≠ .error .overflow ↔
      InWord 32 (cfg.weightStart * |start - lstart|) ∧
      InWord 32 (endWeight cfg (side.isInst * (t - lend)) * |t - lend|) ∧
      InWord 32 (cfg.weightStart * |start - lstart| +
        endWeight cfg (side.isInst * (t - lend)) * |t - lend|) := by
  have hs' := abs_le.mp hs
  have he' := abs_le.mp he
  have h1 : int32 (start - lstart) = .ok (start - lstart) :=
    int32_of_inWord (inWord_32_iff.mpr (by omega))
  have h2 : int32 |start - lstart| = .ok |start - lstart| :=
    int32_of_inWord (inWord_32_iff.mpr ⟨by linarith [abs_nonneg (start - lstart)], hs⟩)
  have h3 : int32 (t - lend) = .ok (t - lend) := int32_of_inWord (inWord_32_iff.mpr (by omega))
  have h4 : int32 |t - lend| = .ok |t - lend| :=
    int32_of_inWord (inWord_32_iff.mpr ⟨by linarith [abs_nonneg (t - lend)], he⟩)
  have h5 : int32 (side.isInst * (t - lend)) = .ok (side.isInst * (t - lend)) := by
    apply int32_of_inWord
    rw [inWord_32_iff]
    cases side <;> simp only [Side.isInst] <;> omega
  unfold weightedDelay32
  rw [h1, h3]
  show (int32 |start - lstart| >>= fun a => _) ≠ _ ↔ _
  rw [h2]
  show (int32 (cfg.weightStart * |start - lstart|) >>= fun badness =>
    int32 (side.isInst * (t - lend)) >>= fun d => _) ≠ _ ↔ _
  rw [h5]
  show (int32 (cfg.weightStart * |start - lstart|) >>= fun badness =>
    if side.isInst * (t - lend) > 0 then
      int32 |t - lend| >>= fun a => int32 (cfg.weightEndp * a) >>= fun c => int32 (badness + c)
    else int32 |t - lend| >>= fun a => int32 (cfg.weightEndn * a) >>= fun c => int32 (badness + c))
      ≠ _ ↔ _
  rw [int32_bind_ne_overflow_iff, h4]
  unfold endWeight
  split
  · show _ ∧ (int32 (cfg.weightEndp * |t - lend|) >>= fun c => _) ≠ _ ↔ _
    rw [int32_bind_ne_overflow_iff, int32_ne_overflow_iff]
  · show _ ∧ (int32 (cfg.weightEndn * |t - lend|) >>= fun c => _) ≠ _ ↔ _
    rw [int32_bind_ne_overflow_iff, int32_ne_overflow_iff]

/-! ### Runs -/

/-- The delays of the note that a note-off grades can be weighted. -/
def GradesFit (cfg : Config) (t : Tables) : Action → Prop
  | .noteOff side note u => ∀ n e, firstAt (Entry.hasNote note) (t.get side) = some (n, e) →
      e.Answered → weightedDelay32 cfg side.isInst u e.start e.lstart e.lend ≠ .error .overflow
  | _ => True

section runs

variable {cfg : Config} {c₁ c₂ : ℤ}

theorem trackNoteOff32_overflow_iff_not {a ref : MIDItrack} (ha : a.InRange) {t : Tables}
    (side : Side) (ht : t.get side = a.entries) (note u : ℤ) :
    trackNoteOff32 cfg a ref note u side.isInst = .error .overflow ↔
      ¬ GradesFit cfg t (.noteOff side note u) := by
  rw [trackNoteOff32_overflow_iff cfg (Holds.of_inRange ha), GradesFit, ht]
  push Not
  rfl

/-- **A checked pass overflows** exactly if it grades a note whose delays
cannot be weighted. -/
theorem midiEventPass32_overflow_iff (h : cfg.ColorsFit) {s : State} (hwf : s.WellFormed)
    (p : Pass) :
    midiEventPass32 cfg s p = .error .overflow ↔
      ¬ GradesFit cfg s.tables (p.action s.track1.channel s.track2.channel) := by
  have hskip {x : State × Output} : (.ok x : Except Fault32 _) = .error .overflow ↔ ¬ True :=
    iff_of_false (fun heq => by cases heq) fun hn => hn trivial
  by_cases hport0 : p.ev.port = 0
  · by_cases hch : p.ev.channel = s.track1.channel
    · by_cases hoff : p.ev.isNoteOff = true
      · -- a note-off of the score
        simp only [midiEventPass32, Pass.action, Pass.actionOn, hport0, hch, hoff, if_true]
        rw [bind_eq_error_iff]
        · exact trackNoteOff32_overflow_iff_not hwf.range1 .score rfl _ _
        · intro r
          apply bind_ne_error (sendScore32_ne_overflow h _ _ _)
          intro sent heq
          cases heq
      · by_cases hon : p.ev.type = .noteon
        · simp only [midiEventPass32, Pass.action, Pass.actionOn, hport0, hch, hoff, hon, if_true]
          refine iff_of_false ?_ fun hn => hn trivial
          apply bind_ne_error (unchecked_ne_overflow _)
          intro r heq
          cases heq
        · simp only [midiEventPass32, Pass.action, Pass.actionOn, hport0, hch, hoff, hon, if_true]
          exact hskip
    · simp only [midiEventPass32, Pass.action, hport0, hch, if_true]
      exact hskip
  · by_cases hport1 : p.ev.port = 1
    · by_cases hch : p.ev.channel = s.track2.channel
      · by_cases hoff : p.ev.isNoteOff = true
        · -- a note-off of the instrument
          simp only [midiEventPass32, Pass.action, Pass.actionOn, hport1, one_ne_zero, if_false,
            hch, hoff, if_true]
          rw [bind_eq_error_iff]
          · exact trackNoteOff32_overflow_iff_not hwf.range2 .inst rfl _ _
          · intro r
            apply bind_ne_error (sendInst32_ne_overflow h _ _ _)
            intro sent heq
            cases heq
        · by_cases hon : p.ev.type = .noteon
          · simp only [midiEventPass32, Pass.action, Pass.actionOn, hport1, one_ne_zero, if_false,
              hch, hoff, hon, if_true]
            refine iff_of_false ?_ fun hn => hn trivial
            apply bind_ne_error (unchecked_ne_overflow _)
            intro r heq
            cases heq
          · simp only [midiEventPass32, Pass.action, Pass.actionOn, hport1, one_ne_zero, if_false,
              hch, hoff, hon, if_true]
            exact hskip
      · simp only [midiEventPass32, Pass.action, hport1, one_ne_zero, if_false, hch, if_true]
        exact hskip
    · simp only [midiEventPass32, Pass.action, hport0, hport1, if_false]
      exact hskip

/-- **A checked run goes to its end** exactly if all its gradings can be
computed. -/
theorem run32_ok_iff (h : cfg.ColorsFit) (ps : List Pass) :
    (∃ r, run (midiEventPass32 cfg) (initial c₁ c₂) ps = .ok r) ↔
      Guarded (tablesPass cfg c₁ c₂) (fun t p => GradesFit cfg t (p.action c₁ c₂)) noTables ps := by
  induction ps using List.reverseRecOn with
  | nil => exact iff_of_true ⟨_, rfl⟩ (always_nil _)
  | append_singleton ps p ih =>
    -- the state in which `p` is read
    have hstate {s : State} {outs : List Output}
        (hs : run (midiEventPass32 cfg) (initial c₁ c₂) ps = .ok (s, outs)) :
        run (midiEventPass cfg) (initial c₁ c₂) ps = .ok (s, outs) ∧
          (midiEventPass32 cfg s p = .error .overflow ↔
            ¬ GradesFit cfg s.tables (p.action c₁ c₂)) := by
      have hexact := (run32_checks cfg _ ps).eq_ok hs
      obtain ⟨t, -, hrep⟩ := (run_represents cfg (initial_represents c₁ c₂) ps).ok hexact
      have hover := midiEventPass32_overflow_iff h hrep.wf p
      rw [hrep.channel1, hrep.channel2] at hover
      exact ⟨hexact, hover⟩
    rw [guarded_snoc, ← ih]
    constructor
    · rintro ⟨⟨s', outs'⟩, hrun⟩
      obtain ⟨s, outs, o, hs, hstep, -⟩ := run_snoc_ok.mp hrun
      refine ⟨⟨_, hs⟩, ?_⟩
      intro t os ht
      obtain ⟨hexact, hover⟩ := hstate hs
      obtain ⟨rfl, -⟩ := run_unique hexact ht
      by_contra hnot
      rw [hover.mpr hnot] at hstep
      cases hstep
    · rintro ⟨⟨⟨s, outs⟩, hs⟩, hfit⟩
      obtain ⟨hexact, hover⟩ := hstate hs
      have hgrades := hfit s.tables outs (run_tables hexact).1
      obtain ⟨t', o, ht'⟩ := tablesPass_total h.ne_zero c₁ c₂ s.tables p
      obtain ⟨s', hstep, -⟩ := pass_of_tables hexact ht'
      rcases midiEventPass32_checks cfg s p with hbad | hlift
      · exact absurd hgrades (hover.mp hbad)
      · rw [hstep] at hlift
        exact ⟨_, run_snoc_ok.mpr ⟨s, outs, o, hs, hlift, rfl⟩⟩

end runs

/-! ### The times of an entry -/

/-- The times in an entry are clock readings (`Q`), in the order of the run
(`R`): first both notes start, then the partner ends, then it is now. -/
structure Entry.Timed (Q : ℤ → Prop) (R : ℤ → ℤ → Prop) (now : ℤ) (e : Entry) : Prop where
  start : Q e.start ∧ R e.start now
  ended : e.lend > -1 → Q e.lstart ∧ Q e.lend ∧ R e.lstart e.lend ∧ R e.start e.lend ∧
    R e.lend now

theorem Entry.Timed.later {Q : ℤ → Prop} {R : ℤ → ℤ → Prop}
    (htrans : ∀ x y z, R x y → R y z → R x z) {now now' : ℤ} {e : Entry} (h : e.Timed Q R now)
    (hnow : R now now') : e.Timed Q R now' where
  start := ⟨h.start.1, htrans _ _ _ h.start.2 hnow⟩
  ended := by
    intro hlend
    obtain ⟨hq, hq', hr, hr', hr''⟩ := h.ended hlend
    exact ⟨hq, hq', hr, hr', htrans _ _ _ hr'' hnow⟩

/-- **Every run** keeps the times in order. -/
theorem run_timed {cfg : Config} {c₁ c₂ : ℤ} {Q : ℤ → Prop} {R : ℤ → ℤ → Prop}
    (htrans : ∀ x y z, R x y → R y z → R x z) {ps : List Pass}
    (htime : Always (fun past p => Q p.time ∧ ∀ u ∈ past, R u.time p.time) ps) {t : Tables}
    {outs : List Output} (h : run (tablesPass cfg c₁ c₂) noTables ps = .ok (t, outs)) :
    ∀ now, (∀ u ∈ ps, R u.time now) → ∀ σ, ∀ e ∈ t.get σ, e.Timed Q R now := by
  induction ps using List.reverseRecOn generalizing t outs with
  | nil =>
    obtain ⟨rfl, -⟩ : noTables = t ∧ [] = outs := by simpa using h
    intro now _ σ e he
    rw [noTables_get] at he
    cases he
  | append_singleton ps p ih =>
    obtain ⟨s, os, o, hs, hstep, -⟩ := run_snoc_ok.mp h
    obtain ⟨hpast, hq, hr⟩ := always_snoc.mp htime
    have hnow := ih hpast hs p.time hr
    intro now hlater
    have hp : R p.time now := hlater p (by simp)
    refine tablesPass_forall hstep hnow (fun _ _ he => he.later htrans hp) ?_ ?_ ?_
    · intro side note u k l ha
      obtain rfl := (Pass.of_noteOn ha).2.2
      exact ⟨⟨hq, hp⟩, fun hlend => absurd hlend (by simp [Entry.fresh])⟩
    · intro side note u k l r _ hr' _
      exact ⟨(hr'.later htrans hp).start, (hr'.later htrans hp).ended⟩
    · intro side note u n e r ha hfind _ _ hr'
      obtain rfl := (Pass.of_noteOff ha).2.2
      have he := hnow side e (firstAt_mem hfind)
      refine ⟨⟨hr'.start.1, htrans _ _ _ hr'.start.2 hp⟩, fun _ => ?_⟩
      exact ⟨he.start.1, hq, he.start.2, hr'.start.2, hp⟩

/-! ### The condition -/

/-- The products of the three weights with the largest delay fit. -/
structure Config.DelaysFit (cfg : Config) (T : ℤ) : Prop where
  start : InWord 32 (cfg.weightStart * T)
  endp : InWord 32 (cfg.weightEndp * T)
  endn : InWord 32 (cfg.weightEndn * T)

/-- The sums of two such products fit. -/
structure Config.SumsFit (cfg : Config) (T : ℤ) : Prop where
  endp : InWord 32 ((cfg.weightStart + cfg.weightEndp) * T)
  endn : InWord 32 ((cfg.weightStart + cfg.weightEndn) * T)

/-- Every clock reading lies in `0 … T`. -/
def TimesWithin (T : ℤ) (ps : List Pass) : Prop := ∀ p ∈ ps, 0 ≤ p.time ∧ p.time ≤ T

instance (T : ℤ) (ps : List Pass) : Decidable (TimesWithin T ps) :=
  inferInstanceAs (Decidable (∀ p ∈ ps, 0 ≤ p.time ∧ p.time ≤ T))

/-- The clock does not run back. -/
def ClockRuns (ps : List Pass) : Prop := (ps.map Pass.time).Pairwise (· ≤ ·)

section condition

variable {cfg : Config} {c₁ c₂ T : ℤ}

theorem Config.DelaysFit.weight (h : cfg.DelaysFit T) (delay : ℤ) :
    InWord 32 (endWeight cfg delay * T) := by
  unfold endWeight
  split
  · exact h.endp
  · exact h.endn

theorem Config.SumsFit.weight (h : cfg.SumsFit T) (delay : ℤ) :
    InWord 32 ((cfg.weightStart + endWeight cfg delay) * T) := by
  unfold endWeight
  split
  · exact h.endp
  · exact h.endn

/-- A run is safe if the sums of the delays that its order of times allows
fit. -/
theorem run32_ok_of_sums {R : ℤ → ℤ → Prop} (htrans : ∀ x y z, R x y → R y z → R x z)
    (hT : T ≤ 2147483647) (hcol : cfg.ColorsFit) (hdel : cfg.DelaysFit T)
    (hsum : ∀ start lstart lend t delay, (0 ≤ start ∧ start ≤ T) → (0 ≤ lstart ∧ lstart ≤ T) →
      (0 ≤ lend ∧ lend ≤ T) → (0 ≤ t ∧ t ≤ T) → R lstart lend → R start lend → R lend t →
      InWord 32 (cfg.weightStart * |start - lstart| + endWeight cfg delay * |t - lend|))
    {ps : List Pass}
    (htime : Always (fun past p => (0 ≤ p.time ∧ p.time ≤ T) ∧ ∀ u ∈ past, R u.time p.time) ps) :
    ∃ r, run (midiEventPass32 cfg) (initial c₁ c₂) ps = .ok r := by
  rw [run32_ok_iff hcol]
  intro past p hp t os hrun
  obtain ⟨ht, hlater⟩ := htime past p hp
  have htimed := run_timed (Q := fun x => 0 ≤ x ∧ x ≤ T) htrans
    (htime.shorten ((List.prefix_append _ _).trans hp)) hrun p.time hlater
  rcases ha : p.action c₁ c₂ with _ | ⟨side, note, u⟩ | _
  · trivial
  · intro n e hfind hans
    obtain rfl := (Pass.of_noteOff ha).2.2
    obtain ⟨⟨hs, -⟩, hended⟩ := htimed side e (firstAt_mem hfind)
    obtain ⟨hls, hle, hr, hr', hr''⟩ := hended hans.2
    have hstart : |e.start - e.lstart| ≤ T := abs_le.mpr (by omega)
    have hend : |p.time - e.lend| ≤ T := abs_le.mpr (by omega)
    rw [weightedDelay32_ne_overflow_iff cfg side (hstart.trans hT) (hend.trans hT)]
    refine ⟨?_, ?_, hsum _ _ _ _ _ hs hls hle ht hr hr' hr''⟩
    · exact hdel.start.mul_of_le (abs_nonneg _) hstart
    · exact (hdel.weight _).mul_of_le (abs_nonneg _) hend
  · trivial

/-- What is graded at the end of a safe run. -/
theorem gradesFit_of_safe (hcol : cfg.ColorsFit) {ps : List Pass} {p : Pass} {t : Tables}
    {outs : List Output} (hrun : run (tablesPass cfg c₁ c₂) noTables ps = .ok (t, outs))
    (hsafe : ∃ r, run (midiEventPass32 cfg) (initial c₁ c₂) (ps ++ [p]) = .ok r) :
    GradesFit cfg t (p.action c₁ c₂) :=
  (guarded_snoc.mp ((run32_ok_iff hcol _).mp hsafe)).2 t outs hrun

/-- A stray note-off of the score computes a colour. -/
theorem colorsFit_of_safe
    (hsafe : ∃ r, run (midiEventPass32 cfg) (initial 0 0) [scoreOff 0] = .ok r) :
    cfg.ColorsFit := by
  obtain ⟨r, hrun⟩ := hsafe
  rcases hcolor : getcolor32 cfg cfg.maxBadness with e | color
  · have hsend : sendScore32 cfg (-1) none 60 = .error e := by
      show (getcolor32 cfg cfg.maxBadness >>= fun color => _) = _
      rw [hcolor]
      rfl
    have hpass : midiEventPass32 cfg (initial 0 0) (scoreOff 0) = .error e := by
      show (sendScore32 cfg (-1) none 60 >>= fun sent => _) = _
      rw [hsend]
      rfl
    rw [run_cons_of_error [] hpass] at hrun
    cases hrun
  · exact colorsFit_of_getcolor32 hcolor

/-- The instrument ends a note that the score has ended before. -/
theorem inst_fits_of_safe (hcol : cfg.ColorsFit) {sS sI eS t : ℤ} (hans : eS > -1)
    (hs : |sI - sS| ≤ 2147483647) (he : |t - eS| ≤ 2147483647)
    (hsafe : ∃ r, run (midiEventPass32 cfg) (initial 0 0)
      (pairOn sS sI ++ [scoreOff eS] ++ [instOff t]) = .ok r) :
    InWord 32 (cfg.weightStart * |sI - sS|) ∧
      InWord 32 (endWeight cfg (t - eS) * |t - eS|) ∧
      InWord 32 (cfg.weightStart * |sI - sS| + endWeight cfg (t - eS) * |t - eS|) := by
  have hgrade : GradesFit cfg _ (.noteOff .inst 60 t) :=
    gradesFit_of_safe hcol (run_scoreOff cfg sS sI eS) hsafe
  have hover := hgrade 0 ⟨60, sI, 0, 0, sS, eS, 0⟩ rfl ⟨neg_one_lt_zero, hans⟩
  have hfits := (weightedDelay32_ne_overflow_iff cfg .inst hs he).mp hover
  rwa [show Side.inst.isInst * (t - eS) = t - eS from one_mul _] at hfits

/-- The score ends a note that the instrument has ended before. -/
theorem score_fits_of_safe (hcol : cfg.ColorsFit) {sS sI eI t : ℤ} (hans : eI > -1)
    (hs : |sS - sI| ≤ 2147483647) (he : |t - eI| ≤ 2147483647)
    (hsafe : ∃ r, run (midiEventPass32 cfg) (initial 0 0)
      (pairOn sS sI ++ [instOff eI] ++ [scoreOff t]) = .ok r) :
    InWord 32 (endWeight cfg (-(t - eI)) * |t - eI|) := by
  have hgrade : GradesFit cfg _ (.noteOff .score 60 t) :=
    gradesFit_of_safe hcol (run_instOff cfg sS sI eI) hsafe
  have hover := hgrade 0 ⟨60, sS, 0, 0, sI, eI, 0⟩ rfl ⟨neg_one_lt_zero, hans⟩
  have hfits := (weightedDelay32_ne_overflow_iff cfg .score hs he).mp hover
  rw [show Side.score.isInst * (t - eI) = -(t - eI) from neg_one_mul _] at hfits
  exact hfits.2.1

/-- Runs of one pair, in the order of their times, show that the products must
fit. -/
theorem delaysFit_of_safe (h0 : 0 ≤ T) (hT : T ≤ 2147483647)
    (hsafe : ∀ c₁ c₂ ps, TimesWithin T ps → ClockRuns ps →
      ∃ r, run (midiEventPass32 cfg) (initial c₁ c₂) ps = .ok r) :
    cfg.ColorsFit ∧ cfg.DelaysFit T := by
  have hcol : cfg.ColorsFit := by
    apply colorsFit_of_safe
    apply hsafe
    · simp [TimesWithin, scoreOff, h0]
    · simp [ClockRuns]
  have habs : |T| = T := abs_of_nonneg h0
  have hpair (x y z : ℤ) (hx : 0 ≤ x) (hxy : x ≤ y) (hyz : y ≤ z) (hz : z ≤ T) :
      (∃ r, run (midiEventPass32 cfg) (initial 0 0)
        (pairOn 0 x ++ [scoreOff y] ++ [instOff z]) = .ok r) ∧
      ∃ r, run (midiEventPass32 cfg) (initial 0 0)
        (pairOn 0 x ++ [instOff y] ++ [scoreOff z]) = .ok r := by
    constructor <;> apply hsafe
    all_goals simp [TimesWithin, ClockRuns, pairOn, scoreOff, instOff]; omega
  refine ⟨hcol, ?_, ?_, ?_⟩
  · -- the instrument starts late and ends in time
    have hfits := inst_fits_of_safe hcol (by omega) (by simpa [habs] using hT) (by simp)
      (hpair T T T h0 le_rfl le_rfl le_rfl).1
    simpa [habs] using hfits.1
  · -- it ends late
    have hfits := inst_fits_of_safe hcol (by omega) (by simp) (by simpa [habs] using hT)
      (hpair 0 0 T le_rfl le_rfl h0 le_rfl).1
    rcases h0.eq_or_lt with rfl | hpos
    · rw [mul_zero]
      exact InWord.zero 32
    · simpa [endWeight, hpos, habs] using hfits.2.1
  · -- it ends early
    have hfits := score_fits_of_safe hcol (by omega) (by simp) (by simpa [habs] using hT)
      (hpair 0 0 T le_rfl le_rfl h0 le_rfl).2
    simpa [endWeight, h0.not_gt, habs] using hfits

/-- Runs of one pair, their times in any order, show that the sums must fit. -/
theorem sumsFit_of_safe (h0 : 0 ≤ T) (hT : T ≤ 2147483647) (hcol : cfg.ColorsFit)
    (hsafe : ∀ c₁ c₂ ps, TimesWithin T ps →
      ∃ r, run (midiEventPass32 cfg) (initial c₁ c₂) ps = .ok r) : cfg.SumsFit T := by
  have habs : |T| = T := abs_of_nonneg h0
  have hpair (y z : ℤ) (hy : 0 ≤ y ∧ y ≤ T) (hz : 0 ≤ z ∧ z ≤ T) :
      ∃ r, run (midiEventPass32 cfg) (initial 0 0)
        (pairOn 0 T ++ [scoreOff y] ++ [instOff z]) = .ok r := by
    apply hsafe
    simp [TimesWithin, pairOn, scoreOff, instOff, h0, hy, hz]
  rcases h0.eq_or_lt with rfl | hpos
  · constructor
    all_goals
      rw [mul_zero]
      exact InWord.zero 32
  constructor
  · -- the instrument starts late and ends late
    have hfits := inst_fits_of_safe hcol (by omega) (by simpa [habs] using hT)
      (by simpa [habs] using hT) (hpair 0 T ⟨le_rfl, h0⟩ ⟨h0, le_rfl⟩)
    simpa [endWeight, hpos, habs, ← add_mul] using hfits.2.2
  · -- it starts late and ends early
    have hfits := inst_fits_of_safe hcol (by omega) (by simpa [habs] using hT)
      (by simpa [habs] using hT) (hpair T 0 ⟨h0, le_rfl⟩ ⟨le_rfl, h0⟩)
    simpa [endWeight, h0.not_gt, habs, ← add_mul] using hfits.2.2

end condition

/-- **The arithmetic is safe exactly if** the colours can be computed and the
weighted delays fit: their products with `T` and, unless the clock readings
come in order, the sums of these. -/
theorem arithmetic_safe_iff (cfg : Config) {T : ℤ} (h0 : 0 ≤ T) (hT : T ≤ 2147483647) :
    ((∀ c₁ c₂ ps, TimesWithin T ps →
        ∃ r, run (midiEventPass32 cfg) (initial c₁ c₂) ps = .ok r) ↔
      cfg.ColorsFit ∧ cfg.DelaysFit T ∧ cfg.SumsFit T) ∧
    ((∀ c₁ c₂ ps, TimesWithin T ps → ClockRuns ps →
        ∃ r, run (midiEventPass32 cfg) (initial c₁ c₂) ps = .ok r) ↔
      cfg.ColorsFit ∧ cfg.DelaysFit T) := by
  constructor
  · constructor
    · intro hsafe
      obtain ⟨hcol, hdel⟩ := delaysFit_of_safe h0 hT fun c₁ c₂ ps ht _ => hsafe c₁ c₂ ps ht
      exact ⟨hcol, hdel, sumsFit_of_safe h0 hT hcol hsafe⟩
    · rintro ⟨hcol, hdel, hsums⟩ c₁ c₂ ps htime
      apply run32_ok_of_sums (R := fun _ _ => True) (fun _ _ _ _ _ => trivial) hT hcol hdel
      · intro start lstart lend t delay hs hls hle ht _ _ _
        exact hdel.start.weighted_sum (hdel.weight delay) (hsums.weight delay)
          (abs_nonneg _) (abs_le.mpr (by omega)) (abs_nonneg _) (abs_le.mpr (by omega))
      · intro past p hp
        exact ⟨htime p (hp.subset (by simp)), fun _ _ => trivial⟩
  · constructor
    · exact delaysFit_of_safe h0 hT
    · rintro ⟨hcol, hdel⟩ c₁ c₂ ps htime hclock
      apply run32_ok_of_sums (R := (· ≤ ·)) (fun _ _ _ => le_trans) hT hcol hdel
      · -- the delay at the start is a part of the time before the partner's end
        intro start lstart lend t delay hs hls hle ht hr hr' hr''
        have hstart : |start - lstart| ≤ lend := abs_le.mpr (by omega)
        have hend : |t - lend| = t - lend := abs_of_nonneg (by omega)
        exact hdel.start.weighted_sum_of_add_le (hdel.weight delay) (abs_nonneg _)
          (abs_nonneg _) (by omega)
      · intro past p hp
        refine ⟨htime p (hp.subset (by simp)), ?_⟩
        have hpast := List.Pairwise.sublist (hp.map Pass.time).sublist hclock
        rw [List.map_append, List.pairwise_append] at hpast
        intro u hu
        exact hpast.2.2 _ (List.mem_map_of_mem hu) _ (by simp)

/-- The default configuration, in a session of one day. -/
theorem chord_arithmetic_safe :
    ∃ r, run (midiEventPass32 ⟨100, 10, 10, 5⟩) (initial 0 0) chord = .ok r :=
  (arithmetic_safe_iff ⟨100, 10, 10, 5⟩ (T := 86400000) (by decide) (by decide)).1.mpr
    ⟨⟨by decide, by decide⟩, ⟨by decide, by decide, by decide⟩, ⟨by decide, by decide⟩⟩ 0 0 chord
    (by decide)

/-- **A note that ends sixty hours late** overflows the default
configuration. -/
theorem late_release_overflows :
    ¬ ∀ (cfg : Config) (c₁ c₂ : ℤ) (ps : List Pass), TimesWithin 2147483647 ps →
      ∃ r, run (midiEventPass32 cfg) (initial c₁ c₂) ps = .ok r := by
  intro h
  have hcol : Config.ColorsFit ⟨100, 10, 10, 5⟩ := ⟨by decide, by decide⟩
  have hrun := h ⟨100, 10, 10, 5⟩ 0 0 (pairOn 0 0 ++ [scoreOff 0] ++ [instOff 214748365])
    (by decide)
  have hfits := inst_fits_of_safe hcol (by decide) (by decide) (by decide) hrun
  exact absurd hfits.2.1 (by decide)

end MidiTraining
