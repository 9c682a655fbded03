/-
MidiTraining/Clock.lean

The clock: `tmsec` and what its values are used for.

`tmsec` multiplies a reading of `clock()` by 1000, divides the product by
`CLOCKS_PER_SEC` and narrows the quotient to an `int`.  The product is
computed in `clock_t`, whose width and unit depend on the platform.  Its
values serve as time stamps, and as flags: `track_note_off` stores one into
`lend` and takes a value above `-1` for an ended note.

Both uses work exactly if no product overflows and all quotients lie in one
window of 31 bits that the narrowing leaves in order
(`clock_usable_iff`).  On the platform with a 32-bit `clock_t` that is the
first 35 minutes (`clockFits_windows_iff`).
-/
import Mathlib.Algebra.Order.Ring.Abs
import MidiTraining.Arithmetic

namespace MidiTraining

open SwapRemove FaultMachine MachineInt

/-! ### `tmsec` -/

/-- What the C library says about `clock()`. -/
structure Platform where
  /-- The width of `clock_t`. -/
  clockBits : ℕ
  /-- `CLOCKS_PER_SEC`. -/
  clocksPerSec : ℤ
  clocksPerSec_pos : 0 < clocksPerSec

/-- The platform of the `Makefile`. -/
def linux : Platform := ⟨64, 1000000, by decide⟩

/-- The platform of the Visual Studio project. -/
def windows : Platform := ⟨32, 1000, by decide⟩

/-- `tmsec`, for a reading of `clock()`. -/
def tmsec (pf : Platform) (clock : ℤ) : Except Fault32 ℤ := do
  -- multiplied before it is divided, in the type of `clock`
  let scaled ← check .overflow pf.clockBits (1000 * clock)
  return narrow 32 (scaled.tdiv pf.clocksPerSec)

/-- The elapsed milliseconds, before they are narrowed. -/
def Platform.millis (pf : Platform) (clock : ℤ) : ℤ := 1000 * clock / pf.clocksPerSec

section tmsec

variable {pf : Platform} {clock : ℤ}

theorem tmsec_eq (h0 : 0 ≤ clock) (h : InWord pf.clockBits (1000 * clock)) :
    tmsec pf clock = .ok (narrow 32 (pf.millis clock)) := by
  unfold tmsec
  rw [check_of_inWord h]
  show Except.ok (narrow 32 ((1000 * clock).tdiv pf.clocksPerSec)) = _
  rw [Int.tdiv_eq_ediv_of_nonneg (by omega)]
  rfl

theorem inWord_of_tmsec {t : ℤ} (h : tmsec pf clock = .ok t) :
    InWord pf.clockBits (1000 * clock) := by
  by_contra hnot
  unfold tmsec check at h
  rw [if_neg hnot] at h
  cases h

/-- The elapsed milliseconds are rounded down. -/
theorem Platform.millis_bounds (pf : Platform) (clock : ℤ) :
    pf.clocksPerSec * pf.millis clock ≤ 1000 * clock ∧
      1000 * clock < pf.clocksPerSec * pf.millis clock + pf.clocksPerSec := by
  constructor
  · exact Int.mul_ediv_self_le pf.clocksPerSec_pos.ne'
  · exact Int.lt_mul_ediv_self_add pf.clocksPerSec_pos

theorem Platform.millis_mono (pf : Platform) {c c' : ℤ} (h : c ≤ c') :
    pf.millis c ≤ pf.millis c' :=
  Int.ediv_le_ediv pf.clocksPerSec_pos (by omega)

end tmsec

/-! ### The ended flag -/

/-- In a run, a note reads as ended once its partner has ended: a note-off
that defers its result leaves its partner ended, and a note that does not
read as ended after a pass is a new one or did not before. -/
structure EndedFlag (cfg : Config) (c₁ c₂ : ℤ) (ps : List Pass) : Prop where
  stores : ∀ past p s outs s' o, past ++ [p] <+: ps →
    run (midiEventPass cfg) (initial c₁ c₂) past = .ok (s, outs) →
    midiEventPass cfg s p = .ok (s', o) →
    ∀ side note t n e r, p.action c₁ c₂ = .noteOff side note t →
      firstAt (Entry.hasNote note) (s.tables.get side) = some (n, e) → e.Waiting →
      (s.tables.get side.other)[e.link.toNat]? = some r →
      ∃ r', (s'.tables.get side.other)[e.link.toNat]? = some r' ∧ r'.lend = t ∧ r'.lend > -1
  keeps : ∀ past p s outs s' o, past ++ [p] <+: ps →
    run (midiEventPass cfg) (initial c₁ c₂) past = .ok (s, outs) →
    midiEventPass cfg s p = .ok (s', o) →
    ∀ side, ∀ e' ∈ s'.tables.get side, e'.lend > -1 ∨
      (∃ e ∈ s.tables.get side, e' = { e with link := e'.link }) ∨
      ∃ note t k, p.action c₁ c₂ = .noteOn side note t k ∧
        e' = { Entry.fresh note t k with link := e'.link }

/-- The flag works as long as the clock is not negative. -/
theorem endedFlag_of_nonneg (cfg : Config) (c₁ c₂ : ℤ) {ps : List Pass}
    (htime : ∀ p ∈ ps, 0 ≤ p.time) : EndedFlag cfg c₁ c₂ ps where
  stores := by
    -- the write through the link of the note that ends
    intro past p s outs s' o hp hrun hpass side note t n e r ha hfind hw hr
    have ht : 0 ≤ p.time := htime p (hp.subset (by simp))
    obtain ⟨hstep, -⟩ := pass_tables hrun hpass
    obtain ⟨tick, sent, hs', -, -⟩ := tablesPass_of_noteOff hstep ha
    obtain rfl := (Pass.of_noteOff ha).2.2
    refine ⟨e.receive p.time r, ?_, rfl, ?_⟩
    · rw [hs', Tables.get_put_other, noteOff_ref_of_waiting cfg _ _ _ hfind hw,
        List.getElem?_modify_eq, hr]
      rfl
    · rw [Entry.receive_lend]
      omega
  keeps := by
    intro past p s outs s' o hp hrun hpass
    have ht : 0 ≤ p.time := htime p (hp.subset (by simp))
    obtain ⟨hstep, -⟩ := pass_tables hrun hpass
    refine tablesPass_forall (P := fun side e => e ∈ s.tables.get side) hstep (fun _ _ he => he)
      ?_ ?_ ?_ ?_
    · intro side e he
      exact Or.inr (Or.inl ⟨e, he, rfl⟩)
    · intro side note t k l ha
      exact Or.inr (Or.inr ⟨note, t, k, ha, rfl⟩)
    · intro side note t k l r _ hr _
      exact Or.inr (Or.inl ⟨r, hr, rfl⟩)
    · intro side note t n e r ha _ _ _ _
      obtain rfl := (Pass.of_noteOff ha).2.2
      left
      rw [Entry.receive_lend]
      omega

/-! ### A usable clock -/

/-- Readings of `clock()`, one after the other. -/
structure Readings (pf : Platform) (cs : List ℤ) : Prop where
  nonneg : ∀ c ∈ cs, 0 ≤ c
  representable : ∀ c ∈ cs, InWord pf.clockBits c
  ordered : cs.Pairwise (· ≤ ·)

/-- The values of `tmsec` for these readings can be used as time stamps and as
ended flags. -/
structure ClockUsable (pf : Platform) (cs : List ℤ) (v : ℤ → ℤ) : Prop where
  defined : ∀ c ∈ cs, tmsec pf c = .ok (v c)
  nonneg : ∀ c ∈ cs, 0 ≤ v c
  ordered : (cs.map v).Pairwise (· ≤ ·)
  /-- The difference of two values is within 1 of the elapsed milliseconds,
  `1000 * (c' - c) / CLOCKS_PER_SEC`. -/
  elapsed : ∀ c ∈ cs, ∀ c' ∈ cs,
    |pf.clocksPerSec * (v c' - v c) - 1000 * (c' - c)| ≤ pf.clocksPerSec
  flag : ∀ cfg c₁ c₂ ps, ps.map Pass.time = cs.map v → EndedFlag cfg c₁ c₂ ps

/-- No product overflows, and the quotients lie in one window. -/
structure ClockFits (pf : Platform) (cs : List ℤ) : Prop where
  scaled : ∀ c ∈ cs, InWord pf.clockBits (1000 * c)
  window : ∃ k, ∀ c ∈ cs, k * 2 ^ 32 ≤ pf.millis c ∧ pf.millis c < k * 2 ^ 32 + 2 ^ 31

section usable

variable {pf : Platform} {cs : List ℤ}

theorem clockUsable_of_fits (hcs : Readings pf cs) (h : ClockFits pf cs) :
    ClockUsable pf cs fun c => narrow 32 (pf.millis c) := by
  obtain ⟨k, hk⟩ := h.window
  have hv (c : ℤ) (hc : c ∈ cs) : narrow 32 (pf.millis c) = pf.millis c - k * 2 ^ 32 :=
    narrow_succ_of_window (hk c hc).1 (hk c hc).2
  have hnonneg (c : ℤ) (hc : c ∈ cs) : 0 ≤ narrow 32 (pf.millis c) := by
    rw [hv c hc]
    have := (hk c hc).1
    omega
  refine ⟨?_, hnonneg, ?_, ?_, ?_⟩
  · intro c hc
    exact tmsec_eq (hcs.nonneg c hc) (h.scaled c hc)
  · rw [List.pairwise_map]
    refine hcs.ordered.imp_of_mem ?_
    intro c c' hc hc' hle
    rw [hv c hc, hv c' hc']
    have := pf.millis_mono hle
    omega
  · -- the rounding errors of the two readings
    intro c hc c' hc'
    obtain ⟨hlow, hhigh⟩ := pf.millis_bounds c
    obtain ⟨hlow', hhigh'⟩ := pf.millis_bounds c'
    rw [hv c hc, hv c' hc', abs_le]
    constructor <;> nlinarith
  · intro cfg c₁ c₂ ps hps
    apply endedFlag_of_nonneg
    intro p hp
    have hmem : p.time ∈ cs.map _ := hps ▸ List.mem_map_of_mem hp
    obtain ⟨c, hc, heq⟩ := List.mem_map.mp hmem
    rw [← heq]
    exact hnonneg c hc

/-- Two readings whose values differ by the elapsed milliseconds lie in one
window. -/
theorem fits_of_clockUsable (hcs : Readings pf cs) {v : ℤ → ℤ} (h : ClockUsable pf cs v) :
    ClockFits pf cs := by
  have hscaled (c : ℤ) (hc : c ∈ cs) : InWord pf.clockBits (1000 * c) :=
    inWord_of_tmsec (h.defined c hc)
  refine ⟨hscaled, ?_⟩
  have hwindow (c : ℤ) (hc : c ∈ cs) : ∃ k, k * 2 ^ 32 ≤ pf.millis c ∧
      pf.millis c < k * 2 ^ 32 + 2 ^ 31 ∧ v c = pf.millis c - k * 2 ^ 32 := by
    have hv := h.defined c hc
    rw [tmsec_eq (hcs.nonneg c hc) (hscaled c hc)] at hv
    obtain hv := Except.ok.inj hv
    have hnonneg := h.nonneg c hc
    rw [← hv] at hnonneg ⊢
    exact narrow_succ_nonneg_iff.mp hnonneg
  -- the window of the first reading is that of all
  rcases cs with - | ⟨c, cs⟩
  · exact ⟨0, by simp⟩
  · obtain ⟨k, hlow, hhigh, hv⟩ := hwindow c (by simp)
    refine ⟨k, ?_⟩
    intro c' hc'
    obtain ⟨k', hlow', hhigh', hv'⟩ := hwindow c' hc'
    have helapsed := abs_le.mp (h.elapsed c (by simp) c' hc')
    rw [hv, hv'] at helapsed
    obtain ⟨hmlow, hmhigh⟩ := pf.millis_bounds c
    obtain ⟨hmlow', hmhigh'⟩ := pf.millis_bounds c'
    -- a whole window between the two would show in the difference
    have hshift : |pf.clocksPerSec * ((k' - k) * 2 ^ 32)| < pf.clocksPerSec * 2 := by
      rw [abs_lt]
      constructor <;> nlinarith
    rw [abs_mul, abs_of_pos pf.clocksPerSec_pos] at hshift
    have hsmall := abs_lt.mp (lt_of_mul_lt_mul_left hshift pf.clocksPerSec_pos.le)
    obtain rfl : k' = k := by omega
    exact ⟨hlow', hhigh'⟩

/-- The clock can be used, as a time stamp and as an ended flag, exactly if no
product overflows and the quotients lie in one window. -/
theorem clock_usable_iff (hcs : Readings pf cs) : (∃ v, ClockUsable pf cs v) ↔ ClockFits pf cs := by
  constructor
  · rintro ⟨v, hv⟩
    exact fits_of_clockUsable hcs hv
  · intro h
    exact ⟨_, clockUsable_of_fits hcs h⟩

end usable

/-! ### The platforms -/

section platforms

variable {cs : List ℤ}

@[simp] theorem millis_windows (clock : ℤ) : windows.millis clock = clock := by
  show 1000 * clock / 1000 = clock
  omega

/-- On Windows the product is the limit: 35 minutes and 47 seconds. -/
theorem clockFits_windows_iff (hcs : Readings windows cs) :
    ClockFits windows cs ↔ ∀ c ∈ cs, c ≤ 2147483 := by
  constructor
  · intro h c hc
    obtain ⟨-, hhigh⟩ := inWord_32_iff.mp (h.scaled c hc)
    omega
  · intro h
    refine ⟨?_, 0, ?_⟩
    · intro c hc
      have h0 := hcs.nonneg c hc
      have hle := h c hc
      exact inWord_32_iff.mpr ⟨by omega, by omega⟩
    · intro c hc
      have h0 := hcs.nonneg c hc
      have hle := h c hc
      rw [millis_windows]
      constructor <;> omega

/-- On Linux the narrowing is: 24 days, 20 hours and 31 minutes. -/
theorem clockFits_linux (hcs : Readings linux cs) (h : ∀ c ∈ cs, c ≤ 2147483647999) :
    ClockFits linux cs := by
  refine ⟨?_, 0, ?_⟩
  · intro c hc
    have h0 := hcs.nonneg c hc
    have hle := h c hc
    exact inWord_64_iff.mpr ⟨by omega, by omega⟩
  · intro c hc
    have h0 := hcs.nonneg c hc
    have hle := h c hc
    show 0 * 2 ^ 32 ≤ 1000 * c / 1000000 ∧ 1000 * c / 1000000 < 0 * 2 ^ 32 + 2 ^ 31
    constructor <;> omega

/-- The last readings before the limits can be used. -/
theorem last_readings_usable : (∃ v, ClockUsable windows [0, 2147483] v) ∧
    ∃ v, ClockUsable linux [0, 2147483647999] v := by
  have hwindows : Readings windows [0, 2147483] := ⟨by decide, by decide, by decide⟩
  have hlinux : Readings linux [0, 2147483647999] := ⟨by decide, by decide, by decide⟩
  constructor
  · apply (clock_usable_iff hwindows).mpr
    exact (clockFits_windows_iff hwindows).mpr (by decide)
  · apply (clock_usable_iff hlinux).mpr
    exact clockFits_linux hlinux (by decide)

/-- The readings after them cannot: the product overflows on Windows, and on
Linux `tmsec` is negative, so that a note that has ended reads as one that has
not. -/
theorem next_readings_unusable :
    (tmsec windows 2147484 = .error .overflow ∧
      ¬ ∀ cs, Readings windows cs → ∃ v, ClockUsable windows cs v) ∧
    tmsec linux 2147483648000 = .ok (-2147483648) ∧
      ¬ ∀ cs, Readings linux cs → ∃ v, ClockUsable linux cs v := by
  refine ⟨⟨rfl, ?_⟩, rfl, ?_⟩
  · intro h
    obtain ⟨v, hv⟩ := h [2147484] ⟨by decide, by decide, by decide⟩
    cases hv.defined 2147484 (by simp)
  · intro h
    obtain ⟨v, hv⟩ := h [2147483648000] ⟨by decide, by decide, by decide⟩
    have hvalue := Except.ok.inj (hv.defined 2147483648000 (by simp))
    have hnonneg := hv.nonneg 2147483648000 (by simp)
    rw [← hvalue] at hnonneg
    exact absurd hnonneg (by decide)

end platforms

end MidiTraining
