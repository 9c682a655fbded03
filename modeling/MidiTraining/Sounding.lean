/-
MidiTraining/Sounding.lean

The hypotheses on runs: which notes sound.

A run may be asked not to strike a sounding pitch again, not to end a note
that does not sound, or not to exceed the tables.  Each of these is a
condition on the actions alone: `sounding` replays them without any table,
and `held` tells the notes that a table of `MAX_LENGTH` slots takes from
those that it ignores.  The tables hold exactly the former (`run_held`), and
all sounding pitches as long as nothing overflows (`run_sounding`), so the
conditions on the actions become conditions on the state in which a pass is
read (`guarded_room`, `guarded_fresh`, `guarded_found`), which is what the
inductions over runs use.
-/
import Mathlib.Data.Multiset.MapFold
import MidiTraining.Contents

namespace MidiTraining

open SwapRemove FaultMachine

/-! ### Sounding pitches -/

/-- What an action does to the sounding pitches of a side. -/
def soundStep (side : Side) (l : List ℤ) : Action → List ℤ
  | .noteOn σ p _ _ => if σ = side then p :: l else l
  | .noteOff σ p _ => if σ = side then l.erase p else l
  | .ignored => l

/-- The sounding pitches of a side, each as often as it sounds. -/
def sounding (side : Side) (as : List Action) : List ℤ := as.foldl (soundStep side) []

theorem sounding_snoc (side : Side) (as : List Action) (a : Action) :
    sounding side (as ++ [a]) = soundStep side (sounding side as) a := by
  simp [sounding]

/-- A note-on finds fewer than `MAX_LENGTH` notes sounding. -/
def Fits (past : List Action) : Action → Prop
  | .noteOn σ _ _ _ => (sounding σ past).length < maxLength
  | _ => True

/-- A note-on strikes a pitch that does not sound. -/
def StrikesNew (past : List Action) : Action → Prop
  | .noteOn σ p _ _ => p ∉ sounding σ past
  | _ => True

/-- A note-off ends a sounding note. -/
def EndsSounding (past : List Action) : Action → Prop
  | .noteOff σ p _ => p ∈ sounding σ past
  | _ => True

instance (past : List Action) : (a : Action) → Decidable (Fits past a)
  | .noteOn σ _ _ _ => inferInstanceAs (Decidable ((sounding σ past).length < maxLength))
  | .noteOff .. => isTrue trivial
  | .ignored => isTrue trivial

instance (past : List Action) : (a : Action) → Decidable (StrikesNew past a)
  | .noteOn σ p _ _ => inferInstanceAs (Decidable (p ∉ sounding σ past))
  | .noteOff .. => isTrue trivial
  | .ignored => isTrue trivial

instance (past : List Action) : (a : Action) → Decidable (EndsSounding past a)
  | .noteOff σ p _ => inferInstanceAs (Decidable (p ∈ sounding σ past))
  | .noteOn .. => isTrue trivial
  | .ignored => isTrue trivial

/-- No table overflows. -/
abbrev NoOverflow (as : List Action) : Prop := Always Fits as

/-- No pitch is struck again on a side while it sounds there. -/
abbrev NoRestrike (as : List Action) : Prop := Always StrikesNew as

/-- Every note-off ends a sounding note. -/
abbrev NoStray (as : List Action) : Prop := Always EndsSounding as

/-! ### Notes held and notes ignored -/

/-- The notes that sound on a side: in its table, or ignored because the
table was full. -/
structure Held where
  live : List ℤ
  ignored : List ℤ
  deriving DecidableEq, Repr

/-- What an action does to the notes of a side: a note-off ends a note of the
table, if there is one of its pitch. -/
def Held.step (side : Side) (h : Held) : Action → Held
  | .noteOn σ p _ _ =>
      if σ = side then
        if h.live.length < maxLength then { h with live := p :: h.live }
        else { h with ignored := p :: h.ignored }
      else h
  | .noteOff σ p _ =>
      if σ = side then
        if p ∈ h.live then { h with live := h.live.erase p }
        else { h with ignored := h.ignored.erase p }
      else h
  | .ignored => h

/-- The notes that sound on a side, in its table or ignored. -/
def held (side : Side) (as : List Action) : Held := as.foldl (Held.step side) ⟨[], []⟩

theorem held_snoc (side : Side) (as : List Action) (a : Action) :
    held side (as ++ [a]) = (held side as).step side a := by
  simp [held]

/-- What sounds is in the table or ignored. -/
theorem sounding_perm (side : Side) (as : List Action) :
    (sounding side as).Perm ((held side as).live ++ (held side as).ignored) := by
  induction as using List.reverseRecOn with
  | nil => exact List.Perm.refl _
  | append_singleton as a ih =>
    rw [sounding_snoc, held_snoc]
    cases a with
    | ignored => exact ih
    | noteOn σ p t k =>
      rw [soundStep, Held.step]
      by_cases hσ : σ = side
      · rw [if_pos hσ, if_pos hσ]
        split
        · exact ih.cons p
        · exact (ih.cons p).trans List.perm_middle.symm
      · rw [if_neg hσ, if_neg hσ]
        exact ih
    | noteOff σ p t =>
      rw [soundStep, Held.step]
      by_cases hσ : σ = side
      · rw [if_pos hσ, if_pos hσ]
        have herase := ih.erase p
        rw [List.erase_append] at herase
        split at herase <;> rename_i hp
        · rw [if_pos hp]
          exact herase
        · rw [if_neg hp]
          exact herase
      · rw [if_neg hσ, if_neg hσ]
        exact ih

/-- As long as nothing overflows, nothing is ignored. -/
theorem ignored_eq_nil {as : List Action} (hfit : NoOverflow as) (side : Side) :
    (held side as).ignored = [] := by
  induction as using List.reverseRecOn with
  | nil => rfl
  | append_singleton as a ih =>
    obtain ⟨hpast, hfits⟩ := always_snoc.mp hfit
    have hnil := ih hpast
    rw [held_snoc]
    cases a with
    | ignored => exact hnil
    | noteOn σ p t k =>
      by_cases hσ : σ = side
      · subst hσ
        have hlen := (sounding_perm σ as).length_eq
        rw [hnil, List.append_nil] at hlen
        have hroom : (held σ as).live.length < maxLength := by
          rw [← hlen]
          exact hfits
        rw [Held.step, if_pos rfl, if_pos hroom]
        exact hnil
      · rw [Held.step, if_neg hσ]
        exact hnil
    | noteOff σ p t =>
      by_cases hσ : σ = side
      · rw [Held.step, if_pos hσ]
        split
        · exact hnil
        · show (held side as).ignored.erase p = []
          rw [hnil]
          rfl
      · rw [Held.step, if_neg hσ]
        exact hnil

theorem live_perm_sounding {as : List Action} (hfit : NoOverflow as) (side : Side) :
    (held side as).live.Perm (sounding side as) := by
  have hperm := sounding_perm side as
  rw [ignored_eq_nil hfit side, List.append_nil] at hperm
  exact hperm.symm

/-! ### The tables hold the sounding pitches -/

/-- The contents of a side are, in pitches, the notes held. -/
theorem contents_held {as : List Action} {M : Side → Multiset (ℤ × ℤ × ℤ)}
    (h : ContentsRun as M) (side : Side) :
    (M side).map Prod.fst = ↑(held side as).live := by
  induction h with
  | nil => rfl
  | @snoc as a M M' _ hstep hM =>
    rw [held_snoc]
    cases a with
    | ignored =>
      obtain rfl : M' = M := hstep
      exact hM
    | noteOn σ note t tick =>
      obtain ⟨hother, hadd⟩ := hstep
      rcases Side.eq_or_eq_other σ side with rfl | rfl
      · have hcard := congrArg Multiset.card hM
        rw [Multiset.card_map, Multiset.coe_card] at hcard
        rw [hadd, hcard, Held.step, if_pos rfl]
        split
        · rw [Multiset.map_cons, hM]
          rfl
        · exact hM
      · rw [hother, hM, Held.step, if_neg (Side.ne_other σ)]
    | noteOff σ note t =>
      obtain ⟨hother, htake⟩ := hstep
      rcases Side.eq_or_eq_other σ side with rfl | rfl
      · have hmem : note ∈ (held side as).live ↔ ∃ x ∈ M side, x.1 = note := by
          rw [← Multiset.mem_coe, ← hM, Multiset.mem_map]
        rw [Held.step, if_pos rfl]
        rcases htake with ⟨x, hx, rfl, htaken⟩ | ⟨hnone, hsame⟩
        · rw [if_pos (hmem.mpr ⟨x, hx, rfl⟩), ← Multiset.coe_erase, ← hM, htaken,
            Multiset.map_cons, Multiset.erase_cons_head]
        · have hnot : note ∉ (held side as).live := by
            intro hlive
            obtain ⟨x, hx, hxn⟩ := hmem.mp hlive
            exact hnone x hx hxn
          rw [if_neg hnot, hsame]
          exact hM
      · rw [hother, hM, Held.step, if_neg (Side.ne_other σ)]

section runs

variable {cfg : Config} {c₁ c₂ : ℤ} {ps : List Pass}

/-- **The tables hold the notes held**, whatever the run. -/
theorem run_held {t : Tables} {outs : List Output}
    (h : run (tablesPass cfg c₁ c₂) noTables ps = .ok (t, outs)) (side : Side) :
    ((t.get side).map Entry.note).Perm (held side (actions c₁ c₂ ps)).live := by
  have hM := contents_held (run_contents h) side
  rw [← Multiset.coe_eq_coe, ← hM, contents, triples, Multiset.map_coe, List.map_map]
  rfl

/-- **The tables hold the sounding pitches**, as long as nothing overflows. -/
theorem run_sounding {t : Tables} {outs : List Output}
    (h : run (tablesPass cfg c₁ c₂) noTables ps = .ok (t, outs))
    (hfit : NoOverflow (actions c₁ c₂ ps)) (side : Side) :
    ((t.get side).map Entry.note).Perm (sounding side (actions c₁ c₂ ps)) :=
  (run_held h side).trans (live_perm_sounding hfit side)

/-- A condition on the actions, as a condition on the states of the run. -/
theorem guarded_of_always {C : List Action → Action → Prop} {D : Tables → Action → Prop}
    (hC : Always C (actions c₁ c₂ ps))
    (hCD : ∀ past a t outs, past <+: ps → run (tablesPass cfg c₁ c₂) noTables past = .ok (t, outs) →
      C (actions c₁ c₂ past) a → D t a) :
    Guarded (tablesPass cfg c₁ c₂) (fun t p => D t (p.action c₁ c₂)) noTables ps := by
  intro past p hp t outs hrun
  refine hCD past _ t outs ((List.prefix_append _ _).trans hp) hrun (hC _ _ ?_)
  rw [← actions_snoc]
  exact hp.map _

/-! ### The conditions, in the state in which a pass is read -/

/-- A note-on finds room. -/
def Room (t : Tables) : Action → Prop
  | .noteOn σ _ _ _ => (t.get σ).length < maxLength
  | _ => True

/-- A note-on does not find its pitch. -/
def Fresh (t : Tables) : Action → Prop
  | .noteOn σ p _ _ => ∀ e ∈ t.get σ, e.note ≠ p
  | _ => True

/-- A note-off finds its pitch. -/
def Found (t : Tables) : Action → Prop
  | .noteOff σ p _ => ∃ e ∈ t.get σ, e.note = p
  | _ => True

theorem guarded_room (hfit : NoOverflow (actions c₁ c₂ ps)) :
    Guarded (tablesPass cfg c₁ c₂) (fun t p => Room t (p.action c₁ c₂)) noTables ps := by
  refine guarded_of_always hfit ?_
  intro past a t outs hp hrun ha
  cases a with
  | noteOn σ note s k =>
    have hlen := (run_sounding hrun (hfit.shorten (hp.map _)) σ).length_eq
    rw [List.length_map] at hlen
    show (t.get σ).length < maxLength
    rw [hlen]
    exact ha
  | noteOff => trivial
  | ignored => trivial

theorem guarded_fresh (hfit : NoOverflow (actions c₁ c₂ ps))
    (hnew : NoRestrike (actions c₁ c₂ ps)) :
    Guarded (tablesPass cfg c₁ c₂) (fun t p => Fresh t (p.action c₁ c₂)) noTables ps := by
  refine guarded_of_always hnew ?_
  intro past a t outs hp hrun ha
  cases a with
  | noteOn σ note s k =>
    have hperm := run_sounding hrun (hfit.shorten (hp.map _)) σ
    intro e he hnote
    exact ha (hperm.mem_iff.mp (List.mem_map.mpr ⟨e, he, hnote⟩))
  | noteOff => trivial
  | ignored => trivial

theorem guarded_found (hfit : NoOverflow (actions c₁ c₂ ps)) (hend : NoStray (actions c₁ c₂ ps)) :
    Guarded (tablesPass cfg c₁ c₂) (fun t p => Found t (p.action c₁ c₂)) noTables ps := by
  refine guarded_of_always hend ?_
  intro past a t outs hp hrun ha
  cases a with
  | noteOff σ note s =>
    have hperm := run_sounding hrun (hfit.shorten (hp.map _)) σ
    exact List.mem_map.mp (hperm.mem_iff.mpr ha)
  | noteOn => trivial
  | ignored => trivial

end runs

/-! ### Two runs -/

/-- Two notes of the score, the second one at tick `480`, both played and
both released in order. -/
def chord : List Pass :=
  [⟨true, 0, ⟨0, .noteon, 0, 60, 64, 0⟩⟩, ⟨true, 0, ⟨0, .noteon, 0, 64, 64, 480⟩⟩,
    ⟨true, 10, ⟨1, .noteon, 0, 60, 64, 0⟩⟩, ⟨true, 10, ⟨1, .noteon, 0, 64, 64, 0⟩⟩,
    ⟨true, 500, ⟨0, .noteoff, 0, 60, 0, 480⟩⟩, ⟨true, 510, ⟨1, .noteoff, 0, 60, 0, 0⟩⟩,
    ⟨true, 520, ⟨0, .noteoff, 0, 64, 0, 960⟩⟩, ⟨true, 530, ⟨1, .noteoff, 0, 64, 0, 0⟩⟩]

/-- The note-offs of the second pitch both defer their result. -/
theorem run_chord : run (tablesPass ⟨100, 10, 10, 5⟩ 0 0) noTables chord =
    .ok (⟨[], [], some (-1)⟩, [.silent, .silent, .silent, .silent, ⟨some (-2), some 0, []⟩,
      ⟨some 200, some 0, [⟨some 0, 60, .red⟩]⟩, ⟨some (-2), some 480, []⟩,
      ⟨some (-2), some (-1), []⟩]) := by decide

/-- The chord, released in the opposite order. -/
def chordReversed : List Pass :=
  chord.take 4 ++
    [⟨true, 500, ⟨0, .noteoff, 0, 64, 0, 960⟩⟩, ⟨true, 510, ⟨1, .noteoff, 0, 64, 0, 0⟩⟩,
      ⟨true, 520, ⟨0, .noteoff, 0, 60, 0, 480⟩⟩, ⟨true, 530, ⟨1, .noteoff, 0, 60, 0, 0⟩⟩]

end MidiTraining
