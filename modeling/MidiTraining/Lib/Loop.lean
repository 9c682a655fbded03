/-
MidiTraining/Lib/Loop.lean

`while` loops over a machine that reads inputs.

    while (test) body

Each input is read by one turn of the loop: by the test, which may change
the state, and, if the test succeeds, by the body.  After a test that fails
the loop is left, and the remaining inputs change nothing.

A turn that is taken is a step of the machine `turn`, so a loop is a run of
that machine on the inputs before the first failing test (`run_loop`), and
it is left exactly when the tests do not guard the whole run (`left_iff`).
-/
import Mathlib.Data.List.ReduceOption
import MidiTraining.Lib.FaultMachine

namespace FaultMachine

variable {σ ι ο ε : Type*}

/-- The state of a loop: that of its body, and whether the loop was left. -/
structure Loop (σ : Type*) where
  state : σ
  left : Bool
  deriving DecidableEq, Repr

/-- A turn whose test succeeds. -/
def turn (test : σ → ι → σ × Bool) (body : σ → ι → Except ε (σ × ο)) (s : σ) (i : ι) :
    Except ε (σ × ο) :=
  body (test s i).1 i

/-- A turn of the loop. -/
def loop (test : σ → ι → σ × Bool) (body : σ → ι → Except ε (σ × ο)) (l : Loop σ) (i : ι) :
    Except ε (Loop σ × Option ο) :=
  if l.left then .ok (l, none)
  else if (test l.state i).2 then (turn test body l.state i).map fun r => (⟨r.1, false⟩, some r.2)
  else .ok (⟨(test l.state i).1, true⟩, none)

section

variable {test : σ → ι → σ × Bool} {body : σ → ι → Except ε (σ × ο)}

theorem loop_of_left (s : σ) (i : ι) : loop test body ⟨s, true⟩ i = .ok (⟨s, true⟩, none) := rfl

theorem loop_of_go {s : σ} {i : ι} (h : (test s i).2 = true) :
    loop test body ⟨s, false⟩ i =
      (turn test body s i).map fun r => (⟨r.1, false⟩, some r.2) :=
  if_pos h

theorem loop_of_stop {s : σ} {i : ι} (h : (test s i).2 = false) :
    loop test body ⟨s, false⟩ i = .ok (⟨(test s i).1, true⟩, none) := by
  show (if (test s i).2 = true then _ else _) = _
  rw [if_neg (by rw [h]; exact Bool.false_ne_true)]

/-- The test succeeds on the input. -/
abbrev Goes (test : σ → ι → σ × Bool) (s : σ) (i : ι) : Prop := (test s i).2 = true

/-- A turn after which the loop is left. -/
theorem loop_left_iff {l l' : Loop σ} {i : ι} {o : Option ο}
    (h : loop test body l i = .ok (l', o)) :
    l'.left = true ↔ l.left = true ∨ ¬ Goes test l.state i := by
  obtain ⟨s, left⟩ := l
  cases left with
  | true =>
    rw [loop_of_left] at h
    cases h
    exact iff_of_true rfl (Or.inl rfl)
  | false =>
    rcases hgo : (test s i).2 with - | -
    · rw [loop_of_stop hgo] at h
      cases h
      exact iff_of_true rfl (Or.inr (Bool.eq_false_iff.mp hgo))
    · rw [loop_of_go hgo] at h
      rcases hturn : turn test body s i with e | r
      · rw [hturn] at h
        cases h
      · rw [hturn] at h
        cases h
        refine iff_of_false Bool.false_ne_true ?_
        rintro (hleft | hstop)
        · cases hleft
        · exact hstop hgo

/-- What a loop has done from `s`: `before` are the inputs its turns have
read, `s'` is the state after them and `outs` what they have shown. -/
structure Turns (test : σ → ι → σ × Bool) (body : σ → ι → Except ε (σ × ο)) (s : σ) (is : List ι)
    (l : Loop σ) (os : List (Option ο)) (before : List ι) (s' : σ) (outs : List ο) : Prop where
  ran : run (turn test body) s before = .ok (s', outs)
  guarded : Guarded (turn test body) (Goes test) s before
  shown : os.reduceOption = outs
  inside : l.left = false → before = is ∧ l.state = s'
  outside : l.left = true →
    ∃ i, before ++ [i] <+: is ∧ (test s' i).2 = false ∧ l.state = (test s' i).1

/-- **A loop is the run of its turns**, up to the first test that fails. -/
theorem run_loop {s : σ} {is : List ι} {l : Loop σ} {os : List (Option ο)}
    (h : run (loop test body) ⟨s, false⟩ is = .ok (l, os)) :
    ∃ before s' outs, Turns test body s is l os before s' outs := by
  refine run_induction (C := fun _ _ => True)
    (fun is os l => ∃ before s' outs, Turns test body s is l os before s' outs) ?_ ?_
    (guarded_of_forall fun _ _ => trivial) h
  · refine ⟨[], s, [], rfl, ?_, rfl, fun _ => ⟨rfl, rfl⟩, nofun⟩
    exact always_nil _
  · rintro is os ⟨s₁, left⟩ i l₂ o -
      ⟨before, s', outs, ran, guarded, shown, inside, outside⟩ - hstep
    cases left with
    | true =>
      -- nothing happens any more
      rw [loop_of_left] at hstep
      cases hstep
      refine ⟨before, s', outs, ran, guarded, ?_, nofun, fun hleft => ?_⟩
      · rw [List.reduceOption_append, shown]
        exact List.append_nil outs
      · obtain ⟨j, hj, hstop, hstate⟩ := outside hleft
        exact ⟨j, hj.trans (List.prefix_append _ _), hstop, hstate⟩
    | false =>
      obtain ⟨rfl, rfl⟩ := inside rfl
      rcases hgo : (test s₁ i).2 with - | -
      · rw [loop_of_stop hgo] at hstep
        cases hstep
        refine ⟨before, s₁, outs, ran, guarded, ?_, nofun, fun _ => ?_⟩
        · rw [List.reduceOption_append, shown]
          exact List.append_nil outs
        · exact ⟨i, List.prefix_rfl, hgo, rfl⟩
      · rw [loop_of_go hgo] at hstep
        rcases hturn : turn test body s₁ i with err | ⟨s₂, o'⟩
        · rw [hturn] at hstep
          cases hstep
        · rw [hturn] at hstep
          cases hstep
          refine ⟨before ++ [i], s₂, outs ++ [o'], run_snoc_ok.mpr ⟨s₁, outs, o', ran, hturn, rfl⟩,
            guarded_snoc.mpr ⟨guarded, ?_⟩, ?_, fun _ => ⟨rfl, rfl⟩, nofun⟩
          · intro s₃ os₃ h₃
            rw [ran] at h₃
            cases h₃
            exact hgo
          · rw [List.reduceOption_append, shown]
            rfl

/-- **A loop is left** exactly when some test fails. -/
theorem left_iff {s : σ} {is : List ι} {l : Loop σ} {os : List (Option ο)}
    (h : run (loop test body) ⟨s, false⟩ is = .ok (l, os)) :
    l.left = true ↔ ¬ Guarded (turn test body) (Goes test) s is := by
  obtain ⟨before, s', outs, turns⟩ := run_loop h
  constructor
  · intro hleft hguarded
    obtain ⟨i, hi, hstop, -⟩ := turns.outside hleft
    have hgo : (test s' i).2 = true := hguarded before i hi s' outs turns.ran
    rw [hstop] at hgo
    cases hgo
  · intro hnot
    by_contra hinside
    obtain ⟨rfl, -⟩ := turns.inside (Bool.eq_false_iff.mpr hinside)
    exact hnot turns.guarded

/-- A loop runs to the end if its turns fault in no state they reach. -/
theorem run_loop_total {s : σ} (P : σ → Prop) (h0 : P s)
    (hturn : ∀ s i, P s → ∃ s' o, turn test body s i = .ok (s', o) ∧ P s') (is : List ι) :
    ∃ l os, run (loop test body) ⟨s, false⟩ is = .ok (l, os) := by
  have hstep (l : Loop σ) (i : ι) (hP : l.left = false → P l.state) :
      ∃ l' o, loop test body l i = .ok (l', o) ∧ (l'.left = false → P l'.state) := by
    obtain ⟨s₁, left⟩ := l
    cases left with
    | true => exact ⟨_, _, loop_of_left s₁ i, nofun⟩
    | false =>
      rcases hgo : (test s₁ i).2 with - | -
      · exact ⟨_, _, loop_of_stop hgo, nofun⟩
      · obtain ⟨s₂, o, hs₂, hP₂⟩ := hturn s₁ i (hP rfl)
        refine ⟨⟨s₂, false⟩, some o, ?_, fun _ => hP₂⟩
        rw [loop_of_go hgo, hs₂]
        rfl
  have hstart : (⟨s, false⟩ : Loop σ).left = false → P (⟨s, false⟩ : Loop σ).state := fun _ => h0
  obtain ⟨l, os, hrun, -⟩ := run_total (fun l : Loop σ => l.left = false → P l.state) hstart hstep
    is
  exact ⟨l, os, hrun⟩

end

end FaultMachine
