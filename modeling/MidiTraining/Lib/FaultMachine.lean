/-
MidiTraining/Lib/FaultMachine.lean

Deterministic machines that read a list of inputs, produce one output for
each of them, and may stop with a fault:

    step : σ → ι → Except ε (σ × ο)

`run step s is` replays the inputs from the state `s`.  Nine rules carry
every argument about such runs:

* `run_induction` — an assertion about (inputs so far, outputs so far,
  state) that holds before the first input and is preserved by each step
  holds after every run; the assertion may speak about the past;
* `run_agree` — two machines whose steps agree up to a relation on states
  agree, faults included, on every run (`run_agree_on` asks for agreement on
  the inputs of the run only);
* `run_lockstep` — two machines that move together, each on its own inputs,
  produce outputs that are related one by one;
* `run_segments` — a run over segments each of which leads back to the start
  shows what the runs over the segments show;
* `run_exchange` — inputs that do the same in either order may be exchanged;
* `run_without` — an assertion about a run and the same run without some of
  its inputs that every kept and every deleted input preserves holds of the
  two runs; `run_erase` is the case where the deleted inputs are invisible;
* `run_stutter` — a machine each of whose steps is a step of another one, or
  none, runs as the other one does on the inputs that remain;
* `run_part` — a part of a machine runs on its own inputs as it does within
  the machine;
* `run_credit` — what every step can pay from its charge and from the credit
  stored in the state, a run can pay from its charges.

`Always C is` says that `C` holds of every input of `is` together with the
inputs before it; `Guarded` is `Always` for a condition on the state in
which the input is read.
-/
import Mathlib.Algebra.BigOperators.Group.List.Basic
import Mathlib.Algebra.GroupWithZero.Nat
import Mathlib.Algebra.Order.Monoid.Defs
import Mathlib.Data.List.Basic
import Mathlib.Data.List.Infix
import Mathlib.Logic.Relation

namespace FaultMachine

variable {σ τ ι ο ω ε : Type*}

/-! ### Conditions on every input of a list -/

/-- `C past i` holds of each input `i` of the list, `past` being the inputs
before it. -/
def Always (C : List ι → ι → Prop) (is : List ι) : Prop :=
  ∀ past i, past ++ [i] <+: is → C past i

@[simp] theorem always_nil (C : List ι → ι → Prop) : Always C [] := by
  intro past i h
  simp at h

theorem prefix_snoc_iff {past is : List ι} {i j : ι} :
    past ++ [i] <+: is ++ [j] ↔ past ++ [i] <+: is ∨ (past = is ∧ i = j) := by
  constructor
  · intro h
    rcases List.prefix_concat_iff.mp h with heq | hpre
    · have := List.append_inj' heq rfl
      exact Or.inr ⟨this.1, by simpa using this.2⟩
    · exact Or.inl hpre
  · rintro (h | ⟨rfl, rfl⟩)
    · exact h.trans (List.prefix_append _ _)
    · exact List.prefix_rfl

theorem always_snoc {C : List ι → ι → Prop} {is : List ι} {i : ι} :
    Always C (is ++ [i]) ↔ Always C is ∧ C is i := by
  constructor
  · intro h
    exact ⟨fun past j hj => h past j (prefix_snoc_iff.mpr (Or.inl hj)),
      h is i List.prefix_rfl⟩
  · rintro ⟨h, hi⟩ past j hj
    rcases prefix_snoc_iff.mp hj with hpre | ⟨rfl, rfl⟩
    · exact h past j hpre
    · exact hi

theorem always_iff {C : List ι → ι → Prop} {is : List ι} :
    Always C is ↔ ∀ n (h : n < is.length), C (is.take n) is[n] := by
  constructor
  · intro h n hn
    refine h _ _ ?_
    rw [← List.take_succ_eq_append_getElem hn]
    exact List.take_prefix _ _
  · rintro h past i ⟨rest, rfl⟩
    have hi := h past.length (by simp)
    simpa using hi

instance {C : List ι → ι → Prop} [∀ past i, Decidable (C past i)] (is : List ι) :
    Decidable (Always C is) :=
  decidable_of_iff _ always_iff.symm

theorem Always.shorten {C : List ι → ι → Prop} {is js : List ι} (h : Always C js)
    (hp : is <+: js) : Always C is :=
  fun past i hi => h past i (hi.trans hp)

/-! ### Runs -/

/-- Replay the inputs from a state: the final state and one output for each
input, or the first fault. -/
def run (step : σ → ι → Except ε (σ × ο)) : σ → List ι → Except ε (σ × List ο)
  | s, [] => .ok (s, [])
  | s, i :: is =>
      match step s i with
      | .error e => .error e
      | .ok (s', o) =>
          match run step s' is with
          | .error e => .error e
          | .ok (s'', os) => .ok (s'', o :: os)

variable {step : σ → ι → Except ε (σ × ο)} {step' : τ → ι → Except ε (τ × ο)}

@[simp] theorem run_nil (s : σ) : run step s [] = .ok (s, []) := rfl

theorem run_cons_of_ok {s s' : σ} {i : ι} {o : ο} (is : List ι) (h : step s i = .ok (s', o)) :
    run step s (i :: is) = (run step s' is).map fun r => (r.1, o :: r.2) := by
  rcases e : run step s' is with err | ⟨s'', os⟩ <;> simp [run, h, e, Except.map]

theorem run_cons_of_error {s : σ} {i : ι} {e : ε} (is : List ι) (h : step s i = .error e) :
    run step s (i :: is) = .error e := by
  simp [run, h]

theorem run_pair {s s₁ s₂ : σ} {i j : ι} {o o' : ο} (h : step s i = .ok (s₁, o))
    (h' : step s₁ j = .ok (s₂, o')) : run step s [i, j] = .ok (s₂, [o, o']) := by
  rw [run_cons_of_ok [j] h, run_cons_of_ok [] h']
  rfl

theorem run_append_of_ok {s s' : σ} {os : List ο} (is js : List ι)
    (h : run step s is = .ok (s', os)) :
    run step s (is ++ js) = (run step s' js).map fun r => (r.1, os ++ r.2) := by
  induction is generalizing s os with
  | nil =>
    obtain ⟨rfl, rfl⟩ : s = s' ∧ os = [] := by simpa using h
    rcases e : run step s js with err | r <;> simp [e, Except.map]
  | cons i is ih =>
    rcases e : step s i with err | ⟨s₁, o⟩
    · rw [run_cons_of_error is e] at h; cases h
    · rw [run_cons_of_ok is e] at h
      rcases e' : run step s₁ is with err | ⟨s₂, os₂⟩
      · simp [e', Except.map] at h
      · obtain ⟨rfl, rfl⟩ : s₂ = s' ∧ o :: os₂ = os := by simpa [e', Except.map] using h
        rw [List.cons_append, run_cons_of_ok _ e, ih e']
        rcases run step s₂ js with err | r <;> simp [Except.map]

theorem run_append_of_error {s : σ} {e : ε} (is js : List ι) (h : run step s is = .error e) :
    run step s (is ++ js) = .error e := by
  induction is generalizing s with
  | nil => simp at h
  | cons i is ih =>
    rcases e₁ : step s i with err | ⟨s₁, o⟩
    · rw [run_cons_of_error is e₁] at h
      rw [List.cons_append, run_cons_of_error _ e₁]
      exact h
    · rw [run_cons_of_ok is e₁] at h
      rcases e₂ : run step s₁ is with err | r
      · obtain rfl : err = e := by simpa [e₂, Except.map] using h
        rw [List.cons_append, run_cons_of_ok _ e₁, ih e₂, Except.map]
      · simp [e₂, Except.map] at h

/-- A run over one more input is a run followed by one step. -/
theorem run_snoc_ok {s s'' : σ} {is : List ι} {i : ι} {os : List ο} :
    run step s (is ++ [i]) = .ok (s'', os) ↔
      ∃ s' os' o, run step s is = .ok (s', os') ∧ step s' i = .ok (s'', o) ∧ os = os' ++ [o] := by
  rcases e : run step s is with err | ⟨s', os'⟩
  · rw [run_append_of_error is [i] e]
    simp
  · rw [run_append_of_ok is [i] e]
    rcases e' : step s' i with err | ⟨t, o⟩
    · rw [run_cons_of_error [] e']
      simp [Except.map, e']
    · rw [run_cons_of_ok [] e']
      constructor
      · intro h
        obtain ⟨rfl, rfl⟩ : t = s'' ∧ os' ++ [o] = os := by simpa [Except.map] using h
        exact ⟨s', os', o, rfl, e', rfl⟩
      · rintro ⟨s₁, os₁, o₁, h₁, h₂, rfl⟩
        obtain ⟨rfl, rfl⟩ : s' = s₁ ∧ os' = os₁ := by simpa using h₁
        rw [e'] at h₂
        obtain ⟨rfl, rfl⟩ : t = s'' ∧ o = o₁ := by simpa using h₂
        simp [Except.map]

/-- A run of runs is a run of the concatenated inputs. -/
theorem run_flatten {κ : Type*} (f : κ → List ι) (s : σ) (ks : List κ) :
    (run (fun s k => run step s (f k)) s ks).map (fun r => (r.1, r.2.flatten)) =
      run step s (ks.flatMap f) := by
  induction ks generalizing s with
  | nil => rfl
  | cons k ks ih =>
    rw [List.flatMap_cons]
    rcases e : run step s (f k) with err | ⟨s', os⟩
    · have hk : run (fun s k => run step s (f k)) s (k :: ks) = .error err :=
        run_cons_of_error ks e
      rw [hk, run_append_of_error (f k) (ks.flatMap f) e]
      rfl
    · have hk : run (fun s k => run step s (f k)) s (k :: ks) =
          (run (fun s k => run step s (f k)) s' ks).map fun r => (r.1, os :: r.2) :=
        run_cons_of_ok ks e
      rw [hk, run_append_of_ok (f k) (ks.flatMap f) e, ← ih s']
      rcases run (fun s k => run step s (f k)) s' ks with err | r <;> simp [Except.map]

/-- There is one output for each input. -/
theorem run_length {s s' : σ} {is : List ι} {os : List ο} (h : run step s is = .ok (s', os)) :
    os.length = is.length := by
  induction is using List.reverseRecOn generalizing s' os with
  | nil =>
    obtain ⟨-, rfl⟩ : s = s' ∧ os = [] := by simpa using h
    rfl
  | append_singleton is i ih =>
    obtain ⟨s₁, os₁, o, h₁, -, rfl⟩ := run_snoc_ok.mp h
    simp [ih h₁]

/-- A fault no step raises is raised by no run. -/
theorem run_ne_error {e : ε} (h : ∀ s i, step s i ≠ .error e) (s : σ) (is : List ι) :
    run step s is ≠ .error e := by
  induction is generalizing s with
  | nil => simp
  | cons i is ih =>
    rcases e₁ : step s i with err | ⟨s', o⟩
    · rw [run_cons_of_error is e₁]
      intro heq
      cases heq
      exact h s i e₁
    · rw [run_cons_of_ok is e₁]
      rcases e₂ : run step s' is with err | r
      · intro heq
        cases heq
        exact ih s' e₂
      · simp [Except.map]

/-- A machine that faults at no reachable state runs to the end. -/
theorem run_total {s : σ} (P : σ → Prop) (h0 : P s)
    (hstep : ∀ s i, P s → ∃ s' o, step s i = .ok (s', o) ∧ P s') (is : List ι) :
    ∃ s' os, run step s is = .ok (s', os) ∧ P s' := by
  induction is using List.reverseRecOn with
  | nil => exact ⟨s, [], rfl, h0⟩
  | append_singleton is i ih =>
    obtain ⟨s₁, os₁, h₁, hP⟩ := ih
    obtain ⟨s₂, o, h₂, hP'⟩ := hstep s₁ i hP
    exact ⟨s₂, os₁ ++ [o], run_snoc_ok.mpr ⟨s₁, os₁, o, h₁, h₂, rfl⟩, hP'⟩

/-! ### Guarded runs and the induction rule -/

/-- Every input of the run is read in a state that meets `C`. -/
def Guarded (step : σ → ι → Except ε (σ × ο)) (C : σ → ι → Prop) (s : σ) (is : List ι) : Prop :=
  Always (fun past i => ∀ s' os, run step s past = .ok (s', os) → C s' i) is

theorem guarded_snoc {C : σ → ι → Prop} {s : σ} {is : List ι} {i : ι} :
    Guarded step C s (is ++ [i]) ↔
      Guarded step C s is ∧ ∀ s' os, run step s is = .ok (s', os) → C s' i :=
  always_snoc

/-- A condition on the state that a run leads to. -/
instance {C : σ → Prop} [DecidablePred C] (s : σ) (is : List ι) :
    Decidable (∀ s' os, run step s is = .ok (s', os) → C s') :=
  match h : run step s is with
  | .ok r => decidable_of_iff (C r.1) (by
      constructor
      · rintro hr s' os heq
        cases heq
        exact hr
      · exact fun hr => hr r.1 r.2 rfl)
  | .error _ => isTrue (by simp)

instance {C : σ → ι → Prop} [∀ s i, Decidable (C s i)] (s : σ) (is : List ι) :
    Decidable (Guarded step C s is) :=
  inferInstanceAs (Decidable (Always _ is))

/-- A condition on the inputs alone. -/
theorem guarded_of_forall {C : ι → Prop} {s : σ} {is : List ι} (h : ∀ i ∈ is, C i) :
    Guarded step (fun _ i => C i) s is :=
  fun _ _ hi _ _ _ => h _ (hi.subset (by simp))

theorem Guarded.and {C D : σ → ι → Prop} {s : σ} {is : List ι} (hC : Guarded step C s is)
    (hD : Guarded step D s is) : Guarded step (fun s i => C s i ∧ D s i) s is :=
  fun past i hi s' os h => ⟨hC past i hi s' os h, hD past i hi s' os h⟩

/-- **Induction over runs.**  `P` may speak about the inputs read and the
outputs produced so far; every step may assume the guard. -/
theorem run_induction {C : σ → ι → Prop} {s : σ} (P : List ι → List ο → σ → Prop) (h0 : P [] [] s)
    (hstep : ∀ is os s₁ i s₂ o, run step s is = .ok (s₁, os) → P is os s₁ → C s₁ i →
      step s₁ i = .ok (s₂, o) → P (is ++ [i]) (os ++ [o]) s₂)
    {is : List ι} (hC : Guarded step C s is) {s' : σ} {os : List ο}
    (h : run step s is = .ok (s', os)) : P is os s' := by
  induction is using List.reverseRecOn generalizing s' os with
  | nil =>
    obtain ⟨rfl, rfl⟩ : s = s' ∧ os = [] := by simpa using h
    exact h0
  | append_singleton is i ih =>
    obtain ⟨s₁, os₁, o, h₁, h₂, rfl⟩ := run_snoc_ok.mp h
    obtain ⟨hG, hi⟩ := guarded_snoc.mp hC
    exact hstep is os₁ s₁ i s' o h₁ (ih hG h₁) (hi s₁ os₁ h₁) h₂

/-! ### Two machines that agree -/

/-- Two results agree up to `R`: the same fault, or the same output and
related states. -/
def Agree (R : σ → τ → Prop) : Except ε (σ × ο) → Except ε (τ × ο) → Prop
  | .ok (s, o), .ok (t, o') => R s t ∧ o = o'
  | .error e, .error e' => e = e'
  | _, _ => False

theorem Agree.ok {R : σ → τ → Prop} {x : Except ε (σ × ο)} {y : Except ε (τ × ο)}
    (h : Agree R x y) {s : σ} {o : ο} (hx : x = .ok (s, o)) : ∃ t, y = .ok (t, o) ∧ R s t := by
  subst hx
  rcases y with e | ⟨t, o'⟩
  · exact h.elim
  · obtain ⟨hR, rfl⟩ := h
    exact ⟨t, rfl, hR⟩

theorem Agree.reverse {R : σ → τ → Prop} {x : Except ε (σ × ο)} {y : Except ε (τ × ο)}
    (h : Agree R x y) : Agree (fun t s => R s t) y x := by
  rcases x with e | ⟨s, o⟩ <;> rcases y with e' | ⟨t, o'⟩
  · exact Eq.symm h
  · exact h.elim
  · exact h.elim
  · exact ⟨h.1, h.2.symm⟩

theorem Agree.compose {υ : Type*} {R : σ → τ → Prop} {S : τ → υ → Prop} {T : σ → υ → Prop}
    (hRS : ∀ s t u, R s t → S t u → T s u) {x : Except ε (σ × ο)} {y : Except ε (τ × ο)}
    {z : Except ε (υ × ο)} (h : Agree R x y) (h' : Agree S y z) : Agree T x z := by
  rcases x with e | ⟨s, o⟩ <;> rcases y with e' | ⟨t, o'⟩ <;> rcases z with e'' | ⟨u, o''⟩
  · exact Eq.trans h h'
  · exact h'.elim
  · exact h.elim
  · exact h.elim
  · exact h.elim
  · exact h.elim
  · exact h'.elim
  · exact ⟨hRS s t u h.1 h'.1, h.2.trans h'.2⟩

/-- **Agreement is closed under runs**, if the steps agree on the inputs
read. -/
theorem run_agree_on {R : σ → τ → Prop} {is : List ι}
    (hstep : ∀ i ∈ is, ∀ s t, R s t → Agree R (step s i) (step' t i)) {s : σ} {t : τ}
    (h : R s t) : Agree R (run step s is) (run step' t is) := by
  induction is generalizing s t with
  | nil => exact ⟨h, rfl⟩
  | cons i is ih =>
    have hi := hstep i (by simp) s t h
    have hrest {s : σ} {t : τ} := @ih (fun j hj => hstep j (by simp [hj])) s t
    rcases e : step s i with err | ⟨s', o⟩ <;> rcases e' : step' t i with err' | ⟨t', o'⟩ <;>
      rw [e, e'] at hi
    · rw [run_cons_of_error is e, run_cons_of_error is e']
      exact hi
    · exact hi.elim
    · exact hi.elim
    · obtain ⟨hR, rfl⟩ := hi
      rw [run_cons_of_ok is e, run_cons_of_ok is e']
      have hrun := hrest hR
      rcases e₁ : run step s' is with err | ⟨s'', os⟩ <;>
        rcases e₂ : run step' t' is with err' | ⟨t'', os'⟩ <;> rw [e₁, e₂] at hrun
      · exact hrun
      · exact hrun.elim
      · exact hrun.elim
      · exact ⟨hrun.1, congrArg (o :: ·) hrun.2⟩

theorem run_agree {R : σ → τ → Prop}
    (hstep : ∀ s t i, R s t → Agree R (step s i) (step' t i)) {s : σ} {t : τ} (h : R s t)
    (is : List ι) : Agree R (run step s is) (run step' t is) :=
  run_agree_on (fun i _ s t => hstep s t i) h

/-- Translating the inputs is translating them step by step. -/
theorem run_map {κ : Type*} (f : κ → ι) (s : σ) (ks : List κ) :
    run step s (ks.map f) = run (fun s k => step s (f k)) s ks := by
  induction ks generalizing s with
  | nil => rfl
  | cons k ks ih =>
    have hk {e : ε} (h : step s (f k) = .error e) :
        run (fun s k => step s (f k)) s (k :: ks) = .error e := run_cons_of_error ks h
    rw [List.map_cons]
    rcases e : step s (f k) with err | ⟨s', o⟩
    · rw [run_cons_of_error _ e, hk e]
    · have hok : run (fun s k => step s (f k)) s (k :: ks) =
          (run (fun s k => step s (f k)) s' ks).map fun r => (r.1, o :: r.2) :=
        run_cons_of_ok ks e
      rw [run_cons_of_ok _ e, hok, ih s']

/-- **Lockstep.**  Two machines that never fault on related states, read an
input each, stay related and produce related outputs, produce related
outputs all along the run. -/
theorem run_lockstep {κ υ : Type*} {step' : τ → κ → Except ε (τ × υ)} {R : σ → τ → Prop}
    {Q : ο → υ → Prop} (f : ι → κ) {is : List ι}
    (hstep : ∀ i ∈ is, ∀ s t, R s t → ∃ s' o t' o', step s i = .ok (s', o) ∧
      step' t (f i) = .ok (t', o') ∧ R s' t' ∧ Q o o')
    {s : σ} {t : τ} (h : R s t) :
    ∃ s' os t' os', run step s is = .ok (s', os) ∧ run step' t (is.map f) = .ok (t', os') ∧
      R s' t' ∧ List.Forall₂ Q os os' := by
  induction is generalizing s t with
  | nil => exact ⟨s, [], t, [], rfl, rfl, h, .nil⟩
  | cons i is ih =>
    obtain ⟨s₁, o, t₁, o', hs, ht, hR, hQ⟩ := hstep i (by simp) s t h
    obtain ⟨s₂, os, t₂, os', hs', ht', hR', hQ'⟩ := ih (fun j hj => hstep j (by simp [hj])) hR
    refine ⟨s₂, o :: os, t₂, o' :: os', ?_, ?_, hR', .cons hQ hQ'⟩
    · rw [run_cons_of_ok is hs, hs']
      rfl
    · rw [List.map_cons, run_cons_of_ok _ ht, ht']
      rfl

/-- What related outputs show alike, the runs show alike. -/
theorem map_eq_of_forall₂ {υ : Type*} {Q : ο → υ → Prop} {g : ο → ω} {g' : υ → ω}
    (hQ : ∀ o o', Q o o' → g o = g' o') {os : List ο} {os' : List υ}
    (h : List.Forall₂ Q os os') : os.map g = os'.map g' := by
  induction h with
  | nil => rfl
  | cons ho _ ih => rw [List.map_cons, List.map_cons, hQ _ _ ho, ih]

/-! ### Segments -/

/-- States that the machine does not tell apart. -/
theorem run_cons_congr {s t : σ} {i : ι} (is : List ι) (h : step s i = step t i) :
    run step s (i :: is) = run step t (i :: is) := by
  rw [run, run, h]

/-- **Segments** that lead from `t` back to a state that the machine does not
tell from `t` are run independently of each other. -/
theorem run_segments {R : σ → σ → Prop} (hstep : ∀ s t i, R s t → step s i = step t i) {t : σ}
    {segs : List (List ι)} {outss : List (List ο)}
    (h : List.Forall₂ (fun seg os => ∃ t', run step t seg = .ok (t', os) ∧ R t' t) segs outss)
    {s : σ} (hs : R s t) :
    ∃ s', run step s segs.flatten = .ok (s', outss.flatten) ∧ R s' t := by
  induction h generalizing s with
  | nil => exact ⟨s, rfl, hs⟩
  | @cons seg os segs outss hseg _ ih =>
    obtain ⟨t', hrun, ht'⟩ := hseg
    have hfirst : ∃ s', run step s seg = .ok (s', os) ∧ R s' t := by
      cases seg with
      | nil =>
        cases hrun
        exact ⟨s, rfl, hs⟩
      | cons i is => exact ⟨t', (run_cons_congr is (hstep s t i hs)).trans hrun, ht'⟩
    obtain ⟨s', hs', hR⟩ := hfirst
    obtain ⟨s'', hs'', hR'⟩ := ih hR
    refine ⟨s'', ?_, hR'⟩
    rw [List.flatten_cons, List.flatten_cons, run_append_of_ok _ _ hs', hs'']
    rfl

/-! ### Exchanging inputs -/

/-- Two neighbouring inputs are exchanged that `indep` allows to exchange; it
may look at the inputs before them. -/
def Exchange (indep : List ι → ι → ι → Prop) (is js : List ι) : Prop :=
  ∃ past i j rest, is = past ++ ([i, j] ++ rest) ∧ js = past ++ ([j, i] ++ rest) ∧ indep past i j

/-- **Exchange.**  If two inputs do the same in either order, wherever they
may be exchanged, runs that differ in such exchanges are the same. -/
theorem run_exchange {indep : List ι → ι → ι → Prop} {s : σ}
    (hcomm : ∀ past i j s' os, indep past i j → run step s past = .ok (s', os) →
      run step s' [i, j] = run step s' [j, i])
    {is js : List ι} (h : Relation.ReflTransGen (Exchange indep) is js) :
    run step s is = run step s js := by
  induction h with
  | refl => rfl
  | tail _ hlast ih =>
    obtain ⟨past, i, j, rest, rfl, rfl, hindep⟩ := hlast
    rw [ih]
    rcases hpast : run step s past with e | ⟨s', os⟩
    · rw [run_append_of_error _ _ hpast, run_append_of_error _ _ hpast]
    · rw [run_append_of_ok _ _ hpast, run_append_of_ok _ _ hpast]
      have hpair := hcomm past i j s' os hindep hpast
      rcases hij : run step s' [i, j] with e | ⟨s₂, os₂⟩
      · rw [run_append_of_error _ _ hij, run_append_of_error _ _ (hpair ▸ hij)]
      · rw [run_append_of_ok _ _ hij, run_append_of_ok _ _ (hpair ▸ hij)]

/-! ### Deleting inputs -/

/-- The inputs that `del` does not delete, after `past`. -/
def withoutFrom (del : List ι → ι → Bool) : List ι → List ι → List ι
  | _, [] => []
  | past, i :: is =>
      if del past i then withoutFrom del (past ++ [i]) is
      else i :: withoutFrom del (past ++ [i]) is

/-- The inputs that `del` does not delete; it may look at all the inputs
before, deleted or not. -/
def without (del : List ι → ι → Bool) (is : List ι) : List ι := withoutFrom del [] is

theorem withoutFrom_snoc (del : List ι → ι → Bool) (past is : List ι) (i : ι) :
    withoutFrom del past (is ++ [i]) =
      withoutFrom del past is ++ if del (past ++ is) i then [] else [i] := by
  induction is generalizing past with
  | nil => rw [List.append_nil]; rfl
  | cons j is ih =>
    have hassoc : past ++ [j] ++ is = past ++ j :: is := by simp
    rw [List.cons_append, withoutFrom, withoutFrom, ih, hassoc]
    split <;> rfl

theorem without_snoc (del : List ι → ι → Bool) (is : List ι) (i : ι) :
    without del (is ++ [i]) = without del is ++ if del is i then [] else [i] :=
  withoutFrom_snoc del [] is i

theorem without_eq_filter (keep : ι → Bool) (is : List ι) :
    without (fun _ i => !keep i) is = is.filter keep := by
  induction is using List.reverseRecOn with
  | nil => rfl
  | append_singleton is i ih =>
    rw [without_snoc, ih, List.filter_append]
    rcases hk : keep i with - | - <;> simp [hk]

/-- **Induction over a run and the run without the deleted inputs.**  `R`
may speak about the inputs read, the outputs and the states of both runs;
the steps may assume the guard of the second run. -/
theorem run_without (del : List ι → ι → Bool) {D : σ → ι → Prop} {s t : σ}
    (R : List ι → List ο → σ → List ο → σ → Prop) (h0 : R [] [] s [] t) {is : List ι}
    (hskip : ∀ past os s₁ os' t₁ i s₂ o, past ++ [i] <+: is → run step s past = .ok (s₁, os) →
      R past os s₁ os' t₁ → del past i = true → step s₁ i = .ok (s₂, o) →
      R (past ++ [i]) (os ++ [o]) s₂ os' t₁)
    (hkeep : ∀ past os s₁ os' t₁ i s₂ o, past ++ [i] <+: is → run step s past = .ok (s₁, os) →
      R past os s₁ os' t₁ → del past i = false → D t₁ i → step s₁ i = .ok (s₂, o) →
      ∃ t₂ o', step t₁ i = .ok (t₂, o') ∧ R (past ++ [i]) (os ++ [o]) s₂ (os' ++ [o']) t₂)
    (hD : Guarded step D t (without del is)) {s' : σ} {os : List ο}
    (h : run step s is = .ok (s', os)) :
    ∃ t' os', run step t (without del is) = .ok (t', os') ∧ R is os s' os' t' := by
  induction is using List.reverseRecOn generalizing s' os with
  | nil =>
    obtain ⟨rfl, rfl⟩ : s = s' ∧ os = [] := by simpa using h
    exact ⟨t, [], rfl, h0⟩
  | append_singleton is i ih =>
    obtain ⟨s₁, os₁, o, h₁, h₂, rfl⟩ := run_snoc_ok.mp h
    have hpre {past : List ι} {j : ι} (hp : past ++ [j] <+: is) : past ++ [j] <+: is ++ [i] :=
      hp.trans (List.prefix_append _ _)
    rw [without_snoc] at hD ⊢
    obtain ⟨t₁, os₁', ht₁, hR⟩ := ih
      (fun past os s₁ os' t₁ j s₂ o hp => hskip past os s₁ os' t₁ j s₂ o (hpre hp))
      (fun past os s₁ os' t₁ j s₂ o hp => hkeep past os s₁ os' t₁ j s₂ o (hpre hp))
      (hD.shorten (List.prefix_append _ _)) h₁
    rcases hd : del is i with - | -
    · rw [hd] at hD
      obtain ⟨t₂, o', ht₂, hR'⟩ := hkeep is os₁ s₁ os₁' t₁ i s' o List.prefix_rfl h₁ hR hd
        ((guarded_snoc.mp hD).2 t₁ os₁' ht₁) h₂
      exact ⟨t₂, os₁' ++ [o'], run_snoc_ok.mpr ⟨t₁, os₁', o', ht₁, ht₂, rfl⟩, hR'⟩
    · refine ⟨t₁, os₁', ?_, hskip is os₁ s₁ os₁' t₁ i s' o List.prefix_rfl h₁ hR hd h₂⟩
      rw [if_pos rfl, List.append_nil]
      exact ht₁

/-- **Erasure.**  Inputs outside `keep` are stuttering steps that show
nothing; kept inputs lead related states to related states and show the
same.  Then the run over the kept inputs shows what the whole run shows. -/
theorem run_erase {R : σ → σ → Prop} (keep : ι → Bool) (obs : ο → List ω)
    {C C' : σ → ι → Prop} {s t : σ} (h0 : R s t)
    (hskip : ∀ s₁ t₁ i s₂ o, R s₁ t₁ → keep i = false → C s₁ i → step s₁ i = .ok (s₂, o) →
      R s₂ t₁ ∧ obs o = [])
    (hkeep : ∀ s₁ t₁ i s₂ o, R s₁ t₁ → keep i = true → C s₁ i → C' t₁ i →
      step s₁ i = .ok (s₂, o) → ∃ t₂ o', step t₁ i = .ok (t₂, o') ∧ R s₂ t₂ ∧ obs o = obs o')
    {is : List ι} (hC : Guarded step C s is) (hC' : Guarded step C' t (is.filter keep))
    {s' : σ} {os : List ο} (h : run step s is = .ok (s', os)) :
    ∃ t' os', run step t (is.filter keep) = .ok (t', os') ∧ R s' t' ∧
      os.flatMap obs = os'.flatMap obs := by
  rw [← without_eq_filter keep is] at hC' ⊢
  refine run_without (fun _ i => !keep i)
    (fun _ os s os' t => R s t ∧ os.flatMap obs = os'.flatMap obs) ⟨h0, rfl⟩ ?_ ?_ hC' h
  · rintro past os s₁ os' t₁ i s₂ o hp hrun ⟨hR, hobs⟩ hd hstep
    obtain ⟨hR', ho⟩ := hskip s₁ t₁ i s₂ o hR (by simpa using hd) (hC past i hp s₁ os hrun) hstep
    exact ⟨hR', by simp [hobs, ho]⟩
  · rintro past os s₁ os' t₁ i s₂ o hp hrun ⟨hR, hobs⟩ hd hc' hstep
    obtain ⟨t₂, o', ht₂, hR', ho⟩ :=
      hkeep s₁ t₁ i s₂ o hR (by simpa using hd) (hC past i hp s₁ os hrun) hc' hstep
    exact ⟨t₂, o', ht₂, hR', by simp [hobs, ho]⟩

/-! ### A machine that steps where another one does -/

/-- The observations of a run. -/
def observed (obs : ο → List ω) (x : Except ε (σ × List ο)) : Except ε (σ × List ω) :=
  x.map fun r => (r.1, r.2.flatMap obs)

theorem Agree.observed {R : σ → τ → Prop} {x : Except ε (σ × List ο)} {y : Except ε (τ × List ο)}
    (h : Agree R x y) (obs : ο → List ω) :
    Agree R (FaultMachine.observed obs x) (FaultMachine.observed obs y) := by
  rcases x with e | ⟨s, o⟩ <;> rcases y with e' | ⟨t, o'⟩
  · exact h
  · exact h.elim
  · exact h.elim
  · exact ⟨h.1, congrArg (List.flatMap obs) h.2⟩

theorem observed_cons_of_ok {obs : ο → List ω} {s s' : σ} {i : ι} {o : ο} (is : List ι)
    (h : step s i = .ok (s', o)) :
    observed obs (run step s (i :: is)) =
      (observed obs (run step s' is)).map fun r => (r.1, obs o ++ r.2) := by
  rw [run_cons_of_ok is h]
  rcases run step s' is with err | ⟨s'', os⟩ <;> rfl

/-- Agreeing results go on agreeing when the same is shown before both. -/
theorem Agree.prepend {R : σ → τ → Prop} {x : Except ε (σ × List ω)} {y : Except ε (τ × List ω)}
    (h : Agree R x y) (os : List ω) :
    Agree R (x.map fun r => (r.1, os ++ r.2)) (y.map fun r => (r.1, os ++ r.2)) := by
  rcases x with e | ⟨s, o⟩ <;> rcases y with e' | ⟨t, o'⟩
  · exact h
  · exact h.elim
  · exact h.elim
  · exact ⟨h.1, congrArg (os ++ ·) h.2⟩

/-- **Stuttering.**  An input that `f` translates leads related states to
related states and is observed as its translation is, or both machines
fault; an input that `f` does not translate leaves the state related and
shows nothing.  Then the runs agree. -/
theorem run_stutter {κ υ : Type*} {step' : τ → κ → Except ε (τ × υ)} {R : σ → τ → Prop}
    (f : ι → Option κ) (obs : ο → List ω) (obs' : υ → List ω)
    (hskip : ∀ s t i, R s t → f i = none → ∃ s' o, step s i = .ok (s', o) ∧ R s' t ∧ obs o = [])
    (hkeep : ∀ s t i k, R s t → f i = some k →
      (∃ e, step s i = .error e ∧ step' t k = .error e) ∨
        ∃ s' o t' o', step s i = .ok (s', o) ∧ step' t k = .ok (t', o') ∧ R s' t' ∧
          obs o = obs' o')
    {s : σ} {t : τ} (h : R s t) (is : List ι) :
    Agree R (observed obs (run step s is)) (observed obs' (run step' t (is.filterMap f))) := by
  induction is generalizing s t with
  | nil => exact ⟨h, rfl⟩
  | cons i is ih =>
    rcases hf : f i with - | k
    · obtain ⟨s', o, hstep, hR, ho⟩ := hskip s t i h hf
      rw [List.filterMap_cons_none hf, observed_cons_of_ok is hstep, ho]
      have hrest := ih hR
      rcases e : observed obs (run step s' is) with err | r <;> rw [e] at hrest <;> exact hrest
    · rw [List.filterMap_cons_some hf]
      rcases hkeep s t i k h hf with ⟨e, h₁, h₂⟩ | ⟨s', o, t', o', h₁, h₂, hR, ho⟩
      · rw [run_cons_of_error is h₁, run_cons_of_error _ h₂]
        rfl
      · rw [observed_cons_of_ok is h₁, observed_cons_of_ok _ h₂, ho]
        exact (ih hR).prepend (obs' o')

/-! ### A part of a machine -/

/-- The inputs of a part of the machine: what `own` makes of each input of a
run, in the state in which it is read. -/
def inputs {κ : Type*} (step : σ → ι → Except ε (σ × ο)) (own : σ → ι → Option κ) :
    σ → List ι → List κ
  | _, [] => []
  | s, i :: is =>
    (own s i).toList ++
      match step s i with
      | .ok (s', _) => inputs step own s' is
      | .error _ => []

theorem inputs_cons_of_ok {κ : Type*} {own : σ → ι → Option κ} {s s' : σ} {i : ι} {o : ο}
    (is : List ι) (h : step s i = .ok (s', o)) :
    inputs step own s (i :: is) = (own s i).toList ++ inputs step own s' is := by
  rw [inputs, h]

/-- **A part** of a machine.  An input that is not the part's own leaves it
related and shows nothing; one that is moves the part alike and is observed
alike.  Then the part runs on its own inputs as it does within the machine,
and what is observed of the machine is what is observed of the part. -/
theorem run_part {κ υ ε' : Type*} {step' : τ → κ → Except ε' (τ × υ)} {C : σ → ι → Prop}
    {R : σ → τ → Prop} (own : σ → ι → Option κ) (obs : ο → List ω) (obs' : υ → List ω)
    (hother : ∀ s t i s' o, R s t → C s i → own s i = none → step s i = .ok (s', o) →
      R s' t ∧ obs o = [])
    (hown : ∀ s t i k s' o, R s t → C s i → own s i = some k → step s i = .ok (s', o) →
      ∃ t' o', step' t k = .ok (t', o') ∧ R s' t' ∧ obs o = obs' o')
    {s : σ} {t : τ} (h : R s t) {is : List ι} (hC : Guarded step C s is) {s' : σ} {os : List ο}
    (hrun : run step s is = .ok (s', os)) :
    ∃ t' os', run step' t (inputs step own s is) = .ok (t', os') ∧ R s' t' ∧
      os.flatMap obs = os'.flatMap obs' := by
  induction is generalizing s t os with
  | nil =>
    cases hrun
    exact ⟨t, [], rfl, h, rfl⟩
  | cons i is ih =>
    rcases hstep : step s i with e | ⟨s₁, o⟩
    · rw [run_cons_of_error is hstep] at hrun
      cases hrun
    · rw [run_cons_of_ok is hstep] at hrun
      rcases hrest : run step s₁ is with e | ⟨s₂, os₁⟩
      · rw [hrest] at hrun
        cases hrun
      · rw [hrest] at hrun
        cases hrun
        have hi : C s i := hC [] i (List.prefix_append [i] is) s [] rfl
        have hC₁ : Guarded step C s₁ is := by
          intro past j hj s₃ os₃ h₃
          refine hC (i :: past) j (List.prefix_append_right_inj [i] |>.mpr hj) s₃ (o :: os₃) ?_
          rw [run_cons_of_ok past hstep, h₃]
          rfl
        rw [inputs_cons_of_ok is hstep]
        rcases hk : own s i with - | k
        · obtain ⟨hR, ho⟩ := hother s t i s₁ o h hi hk hstep
          obtain ⟨t', os', ht', hR', hos⟩ := ih hR hC₁ hrest
          refine ⟨t', os', ht', hR', ?_⟩
          rw [List.flatMap_cons, ho, hos]
          rfl
        · obtain ⟨t₁, o', ht₁, hR, ho⟩ := hown s t i k s₁ o h hi hk hstep
          obtain ⟨t', os', ht', hR', hos⟩ := ih hR hC₁ hrest
          refine ⟨t', o' :: os', ?_, hR', ?_⟩
          · show run step' t (k :: inputs step own s₁ is) = _
            rw [run_cons_of_ok _ ht₁, ht']
            rfl
          · rw [List.flatMap_cons, List.flatMap_cons, ho, hos]

/-- Either every input of a run meets `C` in the state in which it is read,
or there is a last one that does not. -/
theorem guarded_or_last (C : σ → ι → Prop) {s s' : σ} {is : List ι} {os : List ο}
    (h : run step s is = .ok (s', os)) :
    Guarded step C s is ∨
      ∃ past i rest s₁ os₁ s₂ o os₂, is = past ++ i :: rest ∧ os = os₁ ++ o :: os₂ ∧
        run step s past = .ok (s₁, os₁) ∧ ¬ C s₁ i ∧ step s₁ i = .ok (s₂, o) ∧
          run step s₂ rest = .ok (s', os₂) ∧ Guarded step C s₂ rest := by
  refine run_induction (C := fun _ _ => True) (fun is os s' => Guarded step C s is ∨
    ∃ past i rest s₁ os₁ s₂ o os₂, is = past ++ i :: rest ∧ os = os₁ ++ o :: os₂ ∧
      run step s past = .ok (s₁, os₁) ∧ ¬ C s₁ i ∧ step s₁ i = .ok (s₂, o) ∧
        run step s₂ rest = .ok (s', os₂) ∧ Guarded step C s₂ rest) ?_ ?_
    (guarded_of_forall fun _ _ => trivial) h
  · exact Or.inl (always_nil _)
  · rintro is os s₃ j s₄ o' hrun ih - hstep
    by_cases hj : C s₃ j
    · rcases ih with hguard |
        ⟨past, i, rest, s₁, os₁, s₂, o, os₂, rfl, rfl, hpast, hi, ho, hrest, hguard⟩
      · refine Or.inl (guarded_snoc.mpr ⟨hguard, ?_⟩)
        intro s₅ os₅ h₅
        rw [hrun] at h₅
        cases h₅
        exact hj
      · refine Or.inr ⟨past, i, rest ++ [j], s₁, os₁, s₂, o, os₂ ++ [o'], ?_, ?_, hpast, hi, ho,
          run_snoc_ok.mpr ⟨s₃, os₂, o', hrest, hstep, rfl⟩, guarded_snoc.mpr ⟨hguard, ?_⟩⟩
        · exact List.append_assoc _ _ _
        · exact List.append_assoc _ _ _
        · intro s₅ os₅ h₅
          rw [hrest] at h₅
          cases h₅
          exact hj
    · exact Or.inr ⟨is, j, [], s₃, os, s₄, o', [], rfl, rfl, hrun, hj, hstep, rfl, always_nil _⟩

/-! ### Credit -/

theorem countP_eq_sum {α : Type*} (q : α → Bool) (l : List α) :
    l.countP q = (l.map fun a => if q a then 1 else 0).sum := by
  induction l with
  | nil => rfl
  | cons a l ih => rw [List.countP_cons, ih, List.map_cons, List.sum_cons, Nat.add_comm]

/-- **Credit.**  If the cost of every step and the credit it leaves are
covered by the credit before and the charge of the step, the costs of a run
are covered by the credit at its start and its charges. -/
theorem run_credit {M : Type*} [AddCommMonoid M] [PartialOrder M] [IsOrderedAddMonoid M]
    (credit : σ → M) (cost charge : ι × ο → M)
    (hstep : ∀ s i s' o, step s i = .ok (s', o) →
      cost (i, o) + credit s' ≤ credit s + charge (i, o))
    {s s' : σ} {is : List ι} {os : List ο} (h : run step s is = .ok (s', os)) :
    ((is.zip os).map cost).sum + credit s' ≤ credit s + ((is.zip os).map charge).sum := by
  induction is using List.reverseRecOn generalizing s' os with
  | nil =>
    obtain ⟨rfl, rfl⟩ : s = s' ∧ os = [] := by simpa using h
    simp
  | append_singleton is i ih =>
    obtain ⟨s₁, os₁, o, h₁, h₂, rfl⟩ := run_snoc_ok.mp h
    have hzip : (is ++ [i]).zip (os₁ ++ [o]) = is.zip os₁ ++ [(i, o)] :=
      List.zip_append (run_length h₁).symm
    rw [hzip, List.map_append, List.map_append, List.sum_append, List.sum_append]
    simp only [List.map_singleton, List.sum_singleton]
    calc ((is.zip os₁).map cost).sum + cost (i, o) + credit s'
        = ((is.zip os₁).map cost).sum + (cost (i, o) + credit s') := add_assoc _ _ _
      _ ≤ ((is.zip os₁).map cost).sum + (credit s₁ + charge (i, o)) :=
          add_le_add_right (hstep s₁ i s' o h₂) _
      _ = ((is.zip os₁).map cost).sum + credit s₁ + charge (i, o) := (add_assoc _ _ _).symm
      _ ≤ credit s + ((is.zip os₁).map charge).sum + charge (i, o) :=
          add_le_add_left (ih h₁) _
      _ = credit s + (((is.zip os₁).map charge).sum + charge (i, o)) := add_assoc _ _ _

end FaultMachine
