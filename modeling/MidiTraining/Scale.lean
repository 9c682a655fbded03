/-
MidiTraining/Scale.lean

The colour scale, from blue to red, and how a pair is graded on it.

`getcolor` divides by `MAX_BADNESS` and truncates.  On the badness that
`midi_event` passes to it, clamped to `MAX_BADNESS`, the colour grows with
the badness (`shade_mono`), is red exactly from `MAX_BADNESS` on
(`shade_eq_red_iff`) and blue at zero (`shade_zero`), for every positive
`MAX_BADNESS`, divisible by ten or not.

The two ports compute the badness of a pair with opposite signs.  Both
compute `delayCost` of the delays of the instrument behind the score
(`weightedDelay_eq_delayCost`), which grows with the start delay, and with
the end delay on either side of zero (`delayCost_mono`).

The delays that a pass grades are those an entry has recorded
(`GradedPass`).  They are the delays between the strikes and the releases of
the two notes that were linked (`GradedPair`) as long as the results that are
deferred are delivered; a stale link writes the data of a foreign note into
an entry, and a pair without any delay is sent red (`not_fairScale`).
-/
import Mathlib.Tactic.IntervalCases
import MidiTraining.Grading
import MidiTraining.Roster

namespace MidiTraining

open SwapRemove FaultMachine

/-! ### The order of the colours -/

/-- The place of a colour on the scale. -/
def Color.level : Color → ℕ
  | .blue => 0
  | .green => 1
  | .yellow => 2
  | .orange => 3
  | .red => 4

/-- `blue < green < yellow < orange < red`. -/
instance : LE Color := ⟨fun a b => a.level ≤ b.level⟩

instance (a b : Color) : Decidable (a ≤ b) :=
  inferInstanceAs (Decidable (a.level ≤ b.level))

theorem Color.le_red (a : Color) : a ≤ .red := by
  cases a <;> decide

/-- The `default` of the `switch`. -/
theorem colorOf_of_ge {n : ℤ} (h : 10 ≤ n) : colorOf n = .red := by
  unfold colorOf
  split
  all_goals first | omega | rfl

theorem colorOf_eq_red_iff {n : ℤ} (h : 0 ≤ n) : colorOf n = .red ↔ 10 ≤ n := by
  constructor
  · intro hred
    by_contra hn
    have hlt : n < 10 := by omega
    interval_cases n <;> cases hred
  · exact colorOf_of_ge

theorem colorOf_mono {m n : ℤ} (h : 0 ≤ m) (hmn : m ≤ n) : colorOf m ≤ colorOf n := by
  have h' : 0 ≤ n := h.trans hmn
  by_cases hn : n < 10
  · interval_cases n <;> interval_cases m <;> decide
  · rw [colorOf_of_ge (by omega : 10 ≤ n)]
    exact Color.le_red _

/-! ### The shade of a badness -/

/-- The colour of a badness that is not negative, as both ports send it: the
badness is clamped to `MAX_BADNESS` first. -/
def shade (cfg : Config) (badness : ℤ) : Color :=
  colorOf ((10 * min cfg.maxBadness badness).tdiv cfg.maxBadness)

section shade

variable {cfg : Config} (hbad : 0 < cfg.maxBadness)

include hbad in
theorem getcolor_clamped (badness : ℤ) :
    getcolor cfg (min cfg.maxBadness badness) = .ok (shade cfg badness) :=
  getcolor_of_ne_zero hbad.ne' _

include hbad in
/-- The quotient, without truncation towards zero. -/
theorem shade_eq {badness : ℤ} (h : 0 ≤ badness) :
    shade cfg badness = colorOf (10 * min cfg.maxBadness badness / cfg.maxBadness) := by
  have hmin : 0 ≤ 10 * min cfg.maxBadness badness := by omega
  rw [shade, Int.tdiv_eq_ediv_of_nonneg hmin]

include hbad in
theorem shade_mono {b b' : ℤ} (h : 0 ≤ b) (hle : b ≤ b') : shade cfg b ≤ shade cfg b' := by
  rw [shade_eq hbad h, shade_eq hbad (h.trans hle)]
  have hmin : 10 * min cfg.maxBadness b ≤ 10 * min cfg.maxBadness b' := by omega
  exact colorOf_mono (Int.ediv_nonneg (by omega) hbad.le) (Int.ediv_le_ediv hbad hmin)

include hbad in
theorem shade_eq_red_iff {b : ℤ} (h : 0 ≤ b) : shade cfg b = .red ↔ cfg.maxBadness ≤ b := by
  rw [shade_eq hbad h, colorOf_eq_red_iff (Int.ediv_nonneg (by omega) hbad.le),
    Int.le_ediv_iff_mul_le hbad]
  omega

include hbad in
theorem shade_zero : shade cfg 0 = .blue := by
  rw [shade_eq hbad le_rfl, min_eq_right hbad.le, mul_zero, Int.zero_ediv]
  rfl

end shade

/-! ### The cost of two delays -/

/-- The badness of a pair whose instrument note starts `startDelay` and ends
`endDelay` after the note of the score. -/
def delayCost (cfg : Config) (startDelay endDelay : ℤ) : ℤ :=
  cfg.weightStart * |startDelay| +
    if endDelay > 0 then cfg.weightEndp * |endDelay| else cfg.weightEndn * |endDelay|

/-- By how much the instrument starts after the score, as the entry of a side
records it. -/
def Side.startDelay (side : Side) (e : Entry) : ℤ := side.isInst * (e.start - e.lstart)

/-- By how much the instrument ends after the score, if the entry of a side
ends at `t`. -/
def Side.endDelay (side : Side) (e : Entry) (t : ℤ) : ℤ := side.isInst * (t - e.lend)

theorem Side.abs_isInst_mul (side : Side) (x : ℤ) : |side.isInst * x| = |x| := by
  cases side with
  | score =>
    show |-1 * x| = |x|
    rw [neg_one_mul, abs_neg]
  | inst =>
    show |1 * x| = |x|
    rw [one_mul]

/-- **Both ports compute the cost of the same delays.** -/
theorem weightedDelay_eq_delayCost (cfg : Config) (side : Side) (e : Entry) (t : ℤ) :
    weightedDelay cfg side.isInst t e.start e.lstart e.lend =
      delayCost cfg (side.startDelay e) (side.endDelay e t) := by
  rw [delayCost, Side.startDelay, Side.endDelay, side.abs_isInst_mul, side.abs_isInst_mul]
  rfl

theorem delayCost_nonneg {cfg : Config} (hw : cfg.NonnegWeights) (ds de : ℤ) :
    0 ≤ delayCost cfg ds de := by
  have hstart : 0 ≤ cfg.weightStart * |ds| := mul_nonneg hw.start (abs_nonneg _)
  rw [delayCost]
  split
  · exact add_nonneg hstart (mul_nonneg hw.endp (abs_nonneg _))
  · exact add_nonneg hstart (mul_nonneg hw.endn (abs_nonneg _))

/-- Larger delays of the same sign cost at least as much. -/
theorem delayCost_mono {cfg : Config} (hw : cfg.NonnegWeights) {ds ds' de de' : ℤ}
    (hstart : |ds| ≤ |ds'|) (hsign : de > 0 ↔ de' > 0) (hend : |de| ≤ |de'|) :
    delayCost cfg ds de ≤ delayCost cfg ds' de' := by
  have h := mul_le_mul_of_nonneg_left hstart hw.start
  rw [delayCost, delayCost]
  by_cases hpos : de > 0
  · rw [if_pos hpos, if_pos (hsign.mp hpos)]
    exact add_le_add h (mul_le_mul_of_nonneg_left hend hw.endp)
  · rw [if_neg hpos, if_neg fun hpos' => hpos (hsign.mpr hpos')]
    exact add_le_add h (mul_le_mul_of_nonneg_left hend hw.endn)

/-! ### Passes that grade -/

/-- A pass that grades a pair: in a state the program reaches, a note-off
that ends an entry whose partner's end is recorded. -/
structure GradedPass (cfg : Config) where
  scoreChannel : ℤ
  instChannel : ℤ
  past : List Pass
  outs : List Output
  before : State
  pass : Pass
  side : Side
  pos : ℕ
  entry : Entry
  after : State
  out : Output
  reached : run (midiEventPass cfg) (initial scoreChannel instChannel) past = .ok (before, outs)
  action : pass.action scoreChannel instChannel = .noteOff side entry.note pass.time
  found : firstAt (Entry.hasNote entry.note) (before.tables.get side) = some (pos, entry)
  answered : entry.Answered
  stepped : midiEventPass cfg before pass = .ok (after, out)

namespace GradedPass

variable {cfg : Config} (g : GradedPass cfg)

/-- The start delay that the entry has recorded. -/
def startDelay : ℤ := g.side.startDelay g.entry

/-- The delay of the note-off behind the end that the entry has recorded. -/
def endDelay : ℤ := g.side.endDelay g.entry g.pass.time

/-- It sends the shade of the cost of its delays. -/
theorem sent (hbad : 0 < cfg.maxBadness) (hw : cfg.NonnegWeights) :
    ∃ m, g.out.sent = [m] ∧ m.color = shade cfg (delayCost cfg g.startDelay g.endDelay) := by
  obtain ⟨hstep, -⟩ := pass_tables g.reached g.stepped
  obtain ⟨tick, sent, -, hsend, hout⟩ := tablesPass_of_noteOff hstep g.action
  rw [noteOff_badness cfg _ _ _ g.found, gradeEntry_of_answered _ _ _ _ g.answered,
    weightedDelay_eq_delayCost] at hsend
  obtain ⟨color, hcolor, hsent⟩ := sent_of_graded hsend (delayCost_nonneg hw _ _)
  rw [getcolor_clamped hbad] at hcolor
  cases hcolor
  exact ⟨_, by rw [hout, hsent], rfl⟩

variable {g} {g' : GradedPass cfg} {m m' : Message}

theorem color_eq (hbad : 0 < cfg.maxBadness) (hw : cfg.NonnegWeights) (hm : g.out.sent = [m]) :
    m.color = shade cfg (delayCost cfg g.startDelay g.endDelay) := by
  obtain ⟨x, hx, hcolor⟩ := g.sent hbad hw
  rw [hm] at hx
  obtain rfl := List.singleton_inj.mp hx
  exact hcolor

/-- Worse delays, as they are recorded, never give a better colour. -/
theorem color_le (hbad : 0 < cfg.maxBadness) (hw : cfg.NonnegWeights)
    (hstart : |g.startDelay| ≤ |g'.startDelay|) (hsign : g.endDelay > 0 ↔ g'.endDelay > 0)
    (hend : |g.endDelay| ≤ |g'.endDelay|) (hm : g.out.sent = [m]) (hm' : g'.out.sent = [m']) :
    m.color ≤ m'.color := by
  rw [color_eq hbad hw hm, color_eq hbad hw hm']
  exact shade_mono hbad (delayCost_nonneg hw _ _) (delayCost_mono hw hstart hsign hend)

end GradedPass

/-- The entry that a note-off of a pitch ends has a partner. -/
def HasPartner (T : Table) (note : ℤ) : Prop :=
  ∃ n e, firstAt (Entry.hasNote note) T = some (n, e) ∧ e.link > -1

/-- What a note-off sends is red if it has no partner, or if the cost of its
delays reaches `MAX_BADNESS`. -/
theorem red_iff {cfg : Config} (hbad : 0 < cfg.maxBadness) (hw : cfg.NonnegWeights) {T R : Table}
    {side : Side} {note t : ℤ} {tick : Option ℤ} {sent : List Message}
    (hsend : sendMessage cfg side (noteOff cfg T R note t side.isInst).badness tick note = .ok sent)
    {m : Message} (hm : m ∈ sent) :
    m.color = .red ↔ (side = .score ∧ ¬ HasPartner T note) ∨
      ∃ n e, firstAt (Entry.hasNote note) T = some (n, e) ∧ e.Answered ∧
        cfg.maxBadness ≤ delayCost cfg (side.startDelay e) (side.endDelay e t) := by
  -- without a partner only the score sends, and red
  have hlone (h : (noteOff cfg T R note t side.isInst).badness = -1) :
      side = .score ∧ m.color = .red := by
    rw [h] at hsend
    have hsent := sent_of_lone hbad hsend
    by_cases hside : side = .score
    · rw [if_pos hside] at hsent
      rw [hsent] at hm
      exact ⟨hside, by rw [List.mem_singleton.mp hm]⟩
    · rw [if_neg hside] at hsent
      rw [hsent] at hm
      cases hm
  rcases noteOff_cases cfg T R note t side.isInst with ⟨hnone, hoff⟩ | ⟨n, e, hfind, hoff⟩
  · obtain ⟨hside, hred⟩ := hlone (by rw [hoff])
    refine iff_of_true hred (Or.inl ⟨hside, ?_⟩)
    rintro ⟨n, e, hfind, -⟩
    rw [hnone] at hfind
    cases hfind
  · have hunique {n' : ℕ} {e' : Entry} (h : firstAt (Entry.hasNote note) T = some (n', e')) :
        e' = e := by
      rw [hfind] at h
      exact (Prod.mk.inj (Option.some.inj h)).2.symm
    rcases hoff with ⟨hlink, hoff⟩ | ⟨hans, hoff⟩ | ⟨hwait, hoff⟩
    · obtain ⟨hside, hred⟩ := hlone (by rw [hoff])
      refine iff_of_true hred (Or.inl ⟨hside, ?_⟩)
      rintro ⟨n', e', hfind', hlink'⟩
      rw [hunique hfind'] at hlink'
      exact hlink hlink'
    · rw [hoff, weightedDelay_eq_delayCost] at hsend
      have hnonneg := delayCost_nonneg hw (side.startDelay e) (side.endDelay e t)
      obtain ⟨color, hcolor, hsent⟩ := sent_of_graded hsend hnonneg
      rw [getcolor_clamped hbad] at hcolor
      cases hcolor
      rw [hsent] at hm
      rw [List.mem_singleton.mp hm, shade_eq_red_iff hbad hnonneg]
      constructor
      · exact fun hle => Or.inr ⟨n, e, hfind, hans, hle⟩
      · rintro (⟨-, hnot⟩ | ⟨n', e', hfind', -, hle⟩)
        · exact absurd ⟨n, e, hfind, hans.1⟩ hnot
        · rwa [hunique hfind'] at hle
    · rw [hoff] at hsend
      rcases sendMessage_cases hsend with ⟨hsends, -⟩ | ⟨-, rfl⟩
      · exact absurd hsends (Side.not_sends_neg_two side)
      · cases hm

/-! ### Pairs -/

/-- A pair of linked notes that a note-off grades: it ends `note`, and the
end of a note that was linked to it has arrived.  The two notes are struck
and released where the run says so. -/
structure GradedPair where
  scoreChannel : ℤ
  instChannel : ℤ
  past : List Pass
  pass : Pass
  side : Side
  pos : ℕ
  note : Member
  answer : Answer
  start : ℤ
  tick : ℤ
  lstart : ℤ
  ltick : ℤ
  action : pass.action scoreChannel instChannel = .noteOff side note.pitch pass.time
  found : firstAt (Member.hasPitch note.pitch)
    ((roster (actions scoreChannel instChannel past)).get side) = some (pos, note)
  linked : note.partner ≠ none
  answered : note.answer = some answer
  ended : answer.time > -1
  struck : (actions scoreChannel instChannel past)[note.name]? =
    some (.noteOn side note.pitch start tick)
  partner_struck : (actions scoreChannel instChannel past)[answer.name]? =
    some (.noteOn side.other note.pitch lstart ltick)
  partner_released : (actions scoreChannel instChannel past)[answer.pos]? =
    some (.noteOff side.other note.pitch answer.time)

/-- A note-off of the score that ends a note without partner, or no note. -/
def LoneRelease (c₁ c₂ : ℤ) (past : List Pass) (p : Pass) : Prop :=
  ∃ note t, p.action c₁ c₂ = .noteOff .score note t ∧
    ∀ x ∈ firstAt (Member.hasPitch note) ((roster (actions c₁ c₂ past)).get .score),
      x.2.partner = none

namespace GradedPair

/-- By how much the note of the instrument is struck after that of the
score. -/
def startDelay (g : GradedPair) : ℤ := g.side.isInst * (g.start - g.lstart)

/-- By how much the note of the instrument is released after that of the
score. -/
def endDelay (g : GradedPair) : ℤ := g.side.isInst * (g.pass.time - g.answer.time)

/-- The message that is sent for the pair. -/
def Sends (cfg : Config) (g : GradedPair) (m : Message) : Prop :=
  ∃ s outs o, run (midiEventPass cfg) (initial g.scoreChannel g.instChannel)
    (g.past ++ [g.pass]) = .ok (s, outs ++ [o]) ∧ o.sent = [m]

/-- The pair is graded by the pass `p` after `past`. -/
structure At (g : GradedPair) (c₁ c₂ : ℤ) (past : List Pass) (p : Pass) : Prop where
  score : g.scoreChannel = c₁
  inst : g.instChannel = c₂
  past : g.past = past
  pass : g.pass = p

end GradedPair

/-- What the colours are to tell the player, in the runs that meet `C`: worse
delays never give a better colour, red is for the delays that cost
`MAX_BADNESS` or more and for the notes of the score without partner, and a
pair without delays is blue. -/
structure FairScale (cfg : Config) (C : ℤ → ℤ → List Pass → Prop) : Prop where
  mono : ∀ g g' : GradedPair, C g.scoreChannel g.instChannel g.past →
    C g'.scoreChannel g'.instChannel g'.past → |g.startDelay| ≤ |g'.startDelay| →
    (g.endDelay > 0 ↔ g'.endDelay > 0) → |g.endDelay| ≤ |g'.endDelay| →
    ∀ m m', g.Sends cfg m → g'.Sends cfg m' → m.color ≤ m'.color
  red : ∀ c₁ c₂ past p s outs o, C c₁ c₂ past →
    run (midiEventPass cfg) (initial c₁ c₂) (past ++ [p]) = .ok (s, outs ++ [o]) →
    ∀ m ∈ o.sent, m.color = .red ↔ LoneRelease c₁ c₂ past p ∨
      ∃ g : GradedPair, g.At c₁ c₂ past p ∧
        cfg.maxBadness ≤ delayCost cfg g.startDelay g.endDelay
  blue : ∀ g : GradedPair, C g.scoreChannel g.instChannel g.past → g.startDelay = 0 →
    g.endDelay = 0 → ∀ m, g.Sends cfg m → m.color = .blue

/-! ### Pairs whose data are delivered -/

section shown

variable {c₁ c₂ : ℤ} {past : List Pass} {p : Pass} {s : Tables} {σ : Side} {note t : ℤ}
  (hshown : (roster (actions c₁ c₂ past)).Shown (actions c₁ c₂ past) s)

include hshown in
/-- The note that a note-off ends, in the reference and in the tables. -/
theorem shown_found {pos : ℕ} {x : Member}
    (hx : firstAt (Member.hasPitch note) ((roster (actions c₁ c₂ past)).get σ) = some (pos, x)) :
    ∃ e, firstAt (Entry.hasNote note) (s.get σ) = some (pos, e) ∧
      Shows (actions c₁ c₂ past) σ e x := by
  rcases firstAt_forall₂ (hshown σ) fun _ _ hex => hex.hasNote_eq note with
    ⟨-, hnone⟩ | ⟨n, e, y, he, hy, hshows⟩
  · rw [hx] at hnone
    cases hnone
  · rw [hx] at hy
    cases hy
    exact ⟨e, he, hshows⟩

include hshown in
theorem hasPartner_iff : HasPartner (s.get σ) note ↔
    ∃ x ∈ firstAt (Member.hasPitch note) ((roster (actions c₁ c₂ past)).get σ),
      x.2.partner ≠ none := by
  rcases firstAt_forall₂ (hshown σ) fun _ _ hex => hex.hasNote_eq note with
    ⟨he, hx⟩ | ⟨n, e, x, he, hx, hex⟩
  · simp [HasPartner, he, hx]
  · simp [HasPartner, he, hx, ← hex.link_iff]

/-- The delays of a pair are those that the entry of its note has recorded. -/
theorem GradedPair.delays (g : GradedPair) {e : Entry}
    (h : Shows (actions g.scoreChannel g.instChannel g.past) g.side e g.note) :
    g.side.startDelay e = g.startDelay ∧ g.side.endDelay e g.pass.time = g.endDelay := by
  obtain ⟨hlend, hpartner⟩ := h.answer g.answer g.answered
  have hstruck := h.struck.symm.trans g.struck
  have hpartner' := hpartner.symm.trans g.partner_struck
  simp only [Option.some.injEq, Action.noteOn.injEq] at hstruck hpartner'
  rw [Side.startDelay, Side.endDelay, hlend, hstruck.2.2.1, hpartner'.2.2.1]
  exact ⟨rfl, rfl⟩

include hshown in
/-- An entry whose partner's end is recorded is that of a pair. -/
theorem GradedPair.exists_of_answered (ha : p.action c₁ c₂ = .noteOff σ note t) {n : ℕ} {e : Entry}
    (hfind : firstAt (Entry.hasNote note) (s.get σ) = some (n, e)) (he : e.Answered) :
    ∃ g : GradedPair, g.At c₁ c₂ past p ∧ g.startDelay = σ.startDelay e ∧
      g.endDelay = σ.endDelay e t := by
  rcases firstAt_forall₂ (hshown σ) fun _ _ hex => hex.hasNote_eq note with
    ⟨hnone, -⟩ | ⟨n', e', x, he', hx, hex⟩
  · rw [hfind] at hnone
    cases hnone
  rw [hfind] at he'
  cases he'
  obtain ⟨hlinked, a, hans, hended⟩ := hex.answered_iff.mp he
  obtain rfl := Member.hasPitch_iff.mp (firstAt_test hx)
  obtain rfl := (Pass.of_noteOff ha).2.2
  obtain ⟨hlend, hpartner⟩ := hex.answer a hans
  have hgenuine := roster_genuine (actions c₁ c₂ past) σ x (firstAt_mem hx)
  have hstruck := hex.struck
  rw [hex.note] at hstruck hpartner
  let g : GradedPair := ⟨c₁, c₂, past, p, σ, n, x, a, _, _, _, _, ha, hx, hlinked, hans, hended,
    hstruck, hpartner, (hgenuine.answer a hans).2⟩
  obtain ⟨hstart, hend⟩ := g.delays hex
  exact ⟨g, ⟨rfl, rfl, rfl, rfl⟩, hstart.symm, hend.symm⟩

end shown

section delivered

variable {cfg : Config} {g g' : GradedPair} {m m' : Message}

/-- The pass that ends a pair whose data are delivered grades its delays. -/
theorem GradedPair.exists_pass (hdel : Delivered cfg g.scoreChannel g.instChannel g.past)
    {s s' : State} {outs : List Output} {o : Output}
    (hs : run (midiEventPass cfg) (initial g.scoreChannel g.instChannel) g.past = .ok (s, outs))
    (hstep : midiEventPass cfg s g.pass = .ok (s', o)) :
    ∃ d : GradedPass cfg, d.startDelay = g.startDelay ∧ d.endDelay = g.endDelay ∧ d.out = o := by
  obtain ⟨e, hfind, hshows⟩ := shown_found (run_shown hdel hs) g.found
  obtain ⟨hstart, hend⟩ := g.delays hshows
  have hans : e.Answered := hshows.answered_iff.mpr ⟨g.linked, g.answer, g.answered, g.ended⟩
  have hnote := hshows.note
  exact ⟨⟨_, _, _, _, s, g.pass, g.side, g.pos, e, s', o, hs, hnote ▸ g.action, hnote ▸ hfind,
    hans, hstep⟩, hstart, hend, rfl⟩

theorem GradedPair.pass_of_sends (hdel : Delivered cfg g.scoreChannel g.instChannel g.past)
    (h : g.Sends cfg m) : ∃ d : GradedPass cfg, d.startDelay = g.startDelay ∧
      d.endDelay = g.endDelay ∧ d.out.sent = [m] := by
  obtain ⟨s', outs, o, hrun, hsent⟩ := h
  obtain ⟨s, outs', o', hs, hstep, heq⟩ := run_snoc_ok.mp hrun
  obtain ⟨rfl, rfl⟩ : outs = outs' ∧ o = o' := by simpa using heq
  obtain ⟨d, hstart, hend, rfl⟩ := g.exists_pass hdel hs hstep
  exact ⟨d, hstart, hend, hsent⟩

/-- One message is sent for a pair whose data are delivered. -/
theorem GradedPair.exists_sends (hbad : 0 < cfg.maxBadness) (hw : cfg.NonnegWeights)
    (hdel : Delivered cfg g.scoreChannel g.instChannel g.past) : ∃ m, g.Sends cfg m := by
  obtain ⟨s', outs', hrun⟩ : ∃ s' outs', run (midiEventPass cfg)
      (initial g.scoreChannel g.instChannel) (g.past ++ [g.pass]) = .ok (s', outs') :=
    run_ok hbad.ne' _
  obtain ⟨s, outs, o, hs, hstep, rfl⟩ := run_snoc_ok.mp hrun
  obtain ⟨d, -, -, rfl⟩ := g.exists_pass hdel hs hstep
  obtain ⟨m, hm, -⟩ := d.sent hbad hw
  exact ⟨m, s', outs, d.out, hrun, hm⟩

/-- What is red of a run whose data are delivered. -/
theorem red_iff_of_delivered (hbad : 0 < cfg.maxBadness) (hw : cfg.NonnegWeights) {c₁ c₂ : ℤ}
    {past : List Pass} {p : Pass} {s : State} {outs : List Output} {o : Output}
    (hdel : Delivered cfg c₁ c₂ past)
    (hrun : run (midiEventPass cfg) (initial c₁ c₂) (past ++ [p]) = .ok (s, outs ++ [o]))
    (hm : m ∈ o.sent) :
    m.color = .red ↔ LoneRelease c₁ c₂ past p ∨
      ∃ g : GradedPair, g.At c₁ c₂ past p ∧
        cfg.maxBadness ≤ delayCost cfg g.startDelay g.endDelay := by
  obtain ⟨s₀, outs', o', hs, hpass, heq⟩ := run_snoc_ok.mp hrun
  obtain ⟨rfl, rfl⟩ : outs = outs' ∧ o = o' := by simpa using heq
  have hshown := run_shown hdel hs
  obtain ⟨hstep, -⟩ := pass_tables hs hpass
  rcases tablesPass_cases hstep with ⟨_, _, _, _, _, -, -, rfl⟩ |
    ⟨side, note, t, tick, sent, ha, -, hsend, rfl⟩ | ⟨-, -, rfl⟩
  · cases hm
  · rw [red_iff hbad hw hsend hm, hasPartner_iff hshown]
    refine or_congr ⟨?_, ?_⟩ ⟨?_, ?_⟩
    · rintro ⟨rfl, hlone⟩
      refine ⟨note, t, ha, fun x hx => ?_⟩
      by_contra hne
      exact hlone ⟨x, hx, hne⟩
    · rintro ⟨note', t', ha', hlone⟩
      rw [ha] at ha'
      cases ha'
      refine ⟨rfl, ?_⟩
      rintro ⟨x, hx, hne⟩
      exact hne (hlone x hx)
    · rintro ⟨n, e, hfind, hans, hcost⟩
      obtain ⟨g, hat, hstart, hend⟩ := GradedPair.exists_of_answered hshown ha hfind hans
      exact ⟨g, hat, by rwa [hstart, hend]⟩
    · rintro ⟨g, ⟨rfl, rfl, rfl, rfl⟩, hcost⟩
      have haction := g.action
      rw [ha] at haction
      cases haction
      obtain ⟨e, hfind, hshows⟩ := shown_found hshown g.found
      obtain ⟨hstart, hend⟩ := g.delays hshows
      exact ⟨g.pos, e, hfind, hshows.answered_iff.mpr ⟨g.linked, g.answer, g.answered, g.ended⟩,
        by rwa [hstart, hend]⟩
  · cases hm

end delivered

/-- **Playing worse never gives a better colour**, on either port, in the runs
whose deferred results are all delivered; and every pair gets a colour. -/
theorem worse_never_better (cfg : Config) (hbad : 1 ≤ cfg.maxBadness) (hw : cfg.NonnegWeights) :
    FairScale cfg (Delivered cfg) ∧ ∀ g : GradedPair,
      Delivered cfg g.scoreChannel g.instChannel g.past → ∃ m, g.Sends cfg m := by
  have hpos : 0 < cfg.maxBadness := by omega
  refine ⟨⟨?_, ?_, ?_⟩, fun g hdel => g.exists_sends hpos hw hdel⟩
  · intro g g' hdel hdel' hstart hsign hend m m' hm hm'
    obtain ⟨d, hds, hde, hsent⟩ := g.pass_of_sends hdel hm
    obtain ⟨d', hds', hde', hsent'⟩ := g'.pass_of_sends hdel' hm'
    rw [← hds, ← hds'] at hstart
    rw [← hde, ← hde'] at hsign hend
    exact GradedPass.color_le hpos hw hstart hsign hend hsent hsent'
  · intro c₁ c₂ past p s outs o hdel hrun m hm
    exact red_iff_of_delivered hpos hw hdel hrun hm
  · intro g hdel hstart hend m hm
    obtain ⟨d, hds, hde, hsent⟩ := g.pass_of_sends hdel hm
    have hzero : delayCost cfg 0 0 = 0 := by simp [delayCost]
    rw [GradedPass.color_eq hpos hw hsent, hds, hde, hstart, hend, hzero, shade_zero hpos]

/-- The second note of the instrument in the reversed chord ends last of its
pair, at a given time. -/
def chordReversedPair (t : ℤ) : GradedPair where
  scoreChannel := 0
  instChannel := 0
  past := chordReversed.take 5
  pass := ⟨true, t, ⟨1, .noteoff, 0, 64, 0, 0⟩⟩
  side := .inst
  pos := 1
  note := ⟨3, 64, some 1, some ⟨1, 4, 500⟩⟩
  answer := ⟨1, 4, 500⟩
  start := 10
  tick := 0
  lstart := 0
  ltick := 480
  action := rfl
  found := by decide
  linked := by decide
  answered := rfl
  ended := by decide
  struck := by decide
  partner_struck := by decide
  partner_released := by decide

theorem chordReversed_delivered : Delivered ⟨1000, 10, 10, 5⟩ 0 0 (chordReversed.take 5) :=
  delivered_of_tables (by decide)

/-- The instrument releases the second note of the reversed chord late. -/
theorem released_later_not_better : ∃ m m', (chordReversedPair 510).Sends ⟨1000, 10, 10, 5⟩ m ∧
    (chordReversedPair 800).Sends ⟨1000, 10, 10, 5⟩ m' ∧ m.color ≤ m'.color := by
  obtain ⟨hfair, hsends⟩ := worse_never_better ⟨1000, 10, 10, 5⟩ (by decide)
    ⟨by decide, by decide, by decide⟩
  obtain ⟨m, hm⟩ := hsends (chordReversedPair 510) chordReversed_delivered
  obtain ⟨m', hm'⟩ := hsends (chordReversedPair 800) chordReversed_delivered
  exact ⟨m, m', hm, hm', hfair.mono _ _ chordReversed_delivered chordReversed_delivered
    (by decide) (by decide) (by decide) m m' hm hm'⟩

/-! ### A pair without delays that is sent red -/

/-- A chord of the instrument and the score, of which the score releases the
first note; then a third note that both play alike, while the instrument
holds the second one as long. -/
def chordThenNote : List Pass :=
  [⟨true, 0, ⟨1, .noteon, 0, 60, 64, 0⟩⟩, ⟨true, 0, ⟨1, .noteon, 0, 64, 64, 0⟩⟩,
    ⟨true, 5, ⟨0, .noteon, 0, 60, 64, 0⟩⟩, ⟨true, 5, ⟨0, .noteon, 0, 64, 64, 480⟩⟩,
    ⟨true, 20, ⟨0, .noteoff, 0, 60, 0, 480⟩⟩, ⟨true, 30, ⟨1, .noteon, 0, 72, 64, 0⟩⟩,
    ⟨true, 30, ⟨0, .noteon, 0, 72, 64, 960⟩⟩, ⟨true, 50, ⟨1, .noteoff, 0, 72, 0, 0⟩⟩,
    ⟨true, 50, ⟨1, .noteoff, 0, 64, 0, 0⟩⟩]

/-- The third note, struck at 30 and released at 50 on both sides. -/
def chordThenNotePair : GradedPair where
  scoreChannel := 0
  instChannel := 0
  past := chordThenNote
  pass := ⟨true, 50, ⟨0, .noteoff, 0, 72, 0, 1440⟩⟩
  side := .score
  pos := 1
  note := ⟨6, 72, some 5, some ⟨5, 7, 50⟩⟩
  answer := ⟨5, 7, 50⟩
  start := 30
  tick := 960
  lstart := 30
  ltick := 0
  action := rfl
  found := by decide
  linked := by decide
  answered := rfl
  ended := by decide
  struck := by decide
  partner_struck := by decide
  partner_released := by decide

/-- The stale link of the second note of the instrument leads to the third
note of the score, which is graded with the data of the second one. -/
theorem chordThenNotePair_red :
    chordThenNotePair.Sends ⟨100, 10, 10, 5⟩ ⟨some 960, 72, .red⟩ := by
  have hrun : run (tablesPass ⟨100, 10, 10, 5⟩ 0 0) noTables
      (chordThenNote ++ [⟨true, 50, ⟨0, .noteoff, 0, 72, 0, 1440⟩⟩]) =
      .ok (⟨[⟨64, 5, 480, 1, -1, -1, -1⟩], [⟨60, 0, 0, 0, 5, 20, 0⟩], some 960⟩,
        [.silent, .silent, .silent, .silent, ⟨some (-2), some 0, []⟩, .silent, .silent,
          ⟨some (-2), some (-1), []⟩, ⟨some (-2), some (-1), []⟩] ++
        [⟨some 300, some 960, [⟨some 960, 72, .red⟩]⟩]) := by decide
  obtain ⟨s, hs, -⟩ := run_of_tables hrun
  exact ⟨s, _, _, hs, rfl⟩

/-- **Without the delivery the colours are not fair**: a pair without delays
is sent red. -/
theorem not_fairScale : ¬ ∀ cfg : Config, 1 ≤ cfg.maxBadness → cfg.NonnegWeights →
    FairScale cfg fun _ _ _ => True := by
  intro h
  have hblue := (h ⟨100, 10, 10, 5⟩ (by decide) ⟨by decide, by decide, by decide⟩).blue
    chordThenNotePair trivial (by decide) (by decide) _ chordThenNotePair_red
  cases hblue

end MidiTraining
