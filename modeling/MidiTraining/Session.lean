/-
MidiTraining/Session.lean

When `main` returns.

    while ((waitpid(pid, &status, WNOHANG)==0) || (track_inst.length>0)) {
      if (poll(pfd, npfd, 1) > 0) { midi_event(…); }
    }

"At the end of score, wait for the player to end his last notes."  One turn
of the loop is a *round*: whether the child that plays the score exits
before the test, and the call of `midi_event`, if `poll` reports events.
What is not under the control of the program, when the child exits and which
events arrive, is the list of rounds.

The length of `track_inst` is that of the notes held (`run_held`), which
depend on the events alone, and so does the return (`session_returns_iff`):
a note that is struck and never released keeps `main` in the loop for good,
and a player who releases every note lets it return
(`last_notes_awaited`).  When it returns after a nested session, every note
of the score was coloured once, save those that the score has not released
(`session_complete`).

A round has the events that were read; that the reads of `midi_event` succeed
is assumed here.  What happens at one that fails is in
`MidiTraining.Sequencer`.
-/
import MidiTraining.Lib.Loop
import MidiTraining.Nested

namespace MidiTraining

open SwapRemove FaultMachine

/-! ### The child process -/

/-- The process that plays the score: running, ended but not waited for, or
waited for. -/
inductive Child
  | running
  | zombie
  | gone
  deriving DecidableEq, Repr

/-- The process ends. -/
def Child.exit : Child → Child
  | .running => .zombie
  | c => c

/-- `waitpid(pid, &status, WNOHANG)`: `0` while the child runs, `pid` when it
is collected, and `-1` if there is no such child. -/
def waitpid (pid : ℤ) : Child → ℤ × Child
  | .running => (0, .running)
  | .zombie => (pid, .gone)
  | .gone => (-1, .gone)

/-- The result of `fork` in the parent, the `else` of `if (pid == 0)`. -/
structure Forked where
  pid : ℤ
  parent : pid ≠ 0

/-- The child; a negative `pid` reports that there is none. -/
def Forked.child (f : Forked) : Child := if f.pid < 0 then .gone else .running

theorem Forked.waitpid_eq_zero_iff (f : Forked) (c : Child) :
    (waitpid f.pid c).1 = 0 ↔ c = .running := by
  cases c with
  | running => exact iff_of_true rfl rfl
  | zombie => exact iff_of_false f.parent Child.noConfusion
  | gone =>
    have hne : (-1 : ℤ) ≠ 0 := by decide
    exact iff_of_false hne Child.noConfusion

theorem waitpid_running_iff (pid : ℤ) (c : Child) :
    (waitpid pid c).2 = .running ↔ c = .running := by
  cases c <;> simp [waitpid]

/-! ### The loop -/

/-- One turn of the loop of `main`. -/
structure Round where
  /-- The child exits before the test. -/
  exits : Bool
  /-- The events of the call of `midi_event`, if `poll` reports any. -/
  call : Option ((ℤ × Event) × List (ℤ × Event))
  deriving DecidableEq, Repr

/-- What the loop changes. -/
structure Session where
  child : Child
  state : State

/-- `(waitpid(pid, &status, WNOHANG)==0) || (track_inst.length>0)`. -/
def Session.waits (f : Forked) (s : Session) (r : Round) : Session × Bool :=
  let waited := waitpid f.pid (if r.exits then s.child.exit else s.child)
  (⟨waited.2, s.state⟩, waited.1 = 0 || s.state.track2.length > 0)

/-- `if (poll(pfd, npfd, 1) > 0) midi_event(…);` -/
def Session.poll (cfg : Config) (s : Session) (r : Round) :
    Except Fault (Session × List Output) := do
  match r.call with
  | none => return (s, [])
  | some call =>
    let (state, outs) ← midiEvent cfg s.state call
    return (⟨s.child, state⟩, outs)

/-- The loop of `main`, as the parent of the process it has forked. -/
def session (cfg : Config) (f : Forked) :
    Loop Session → Round → Except Fault (Loop Session × Option (List Output)) :=
  loop (Session.waits f) (Session.poll cfg)

/-- `main` enters the loop. -/
def Session.start (f : Forked) (scoreChannel instChannel : ℤ) : Loop Session :=
  ⟨⟨f.child, initial scoreChannel instChannel⟩, false⟩

/-! ### Turns as passes -/

/-- The passes of a round. -/
def Round.passes (r : Round) : List Pass := (r.call.map callPasses).getD []

/-- The passes of a list of rounds. -/
def passes (rs : List Round) : List Pass := rs.flatMap Round.passes

theorem passes_append (rs rs' : List Round) : passes (rs ++ rs') = passes rs ++ passes rs' :=
  List.flatMap_append

theorem passes_snoc (rs : List Round) (r : Round) : passes (rs ++ [r]) = passes rs ++ r.passes := by
  rw [passes_append]
  exact congrArg (passes rs ++ ·) (List.append_nil _)

theorem passes_mono {rs rs' : List Round} (h : rs <+: rs') : passes rs <+: passes rs' := by
  obtain ⟨rest, rfl⟩ := h
  rw [passes_append]
  exact List.prefix_append _ _

theorem poll_eq (cfg : Config) (s : Session) (r : Round) :
    s.poll cfg r =
      (run (midiEventPass cfg) s.state r.passes).map fun x => (⟨s.child, x.1⟩, x.2) := by
  obtain ⟨exits, call⟩ := r
  cases call with
  | none => rfl
  | some call =>
    show (midiEvent cfg s.state call >>= _) = (midiEvent cfg s.state call).map _
    rcases midiEvent cfg s.state call with err | x <;> rfl

/-- `midi_event` does not touch the child. -/
theorem poll_child {cfg : Config} {s s' : Session} {r : Round} {o : List Output}
    (h : s.poll cfg r = .ok (s', o)) : s'.child = s.child := by
  rw [poll_eq] at h
  rcases hrun : run (midiEventPass cfg) s.state r.passes with err | x
  · rw [hrun] at h
    cases h
  · rw [hrun] at h
    cases h
    rfl

/-- While the child runs, the test succeeds. -/
theorem waits_of_running {f : Forked} {s : Session} (h : s.child = .running)
    (call : Option ((ℤ × Event) × List (ℤ × Event))) : s.waits f ⟨false, call⟩ = (s, true) := by
  obtain ⟨child, state⟩ := s
  obtain rfl : child = .running := h
  rfl

/-- There was no child, or it has exited. -/
def Ended (f : Forked) (rs : List Round) : Prop := f.pid < 0 ∨ ∃ r ∈ rs, r.exits = true

instance (f : Forked) (rs : List Round) : Decidable (Ended f rs) :=
  inferInstanceAs (Decidable (_ ∨ _))

theorem ended_snoc {f : Forked} {rs : List Round} {r : Round} :
    Ended f (rs ++ [r]) ↔ Ended f rs ∨ r.exits = true := by
  simp [Ended, or_assoc]

/-- The child that the test waits for. -/
theorem tested_running_iff {f : Forked} {rs : List Round} {c : Child}
    (h : c = .running ↔ ¬ Ended f rs) (r : Round) :
    (if r.exits then c.exit else c) = .running ↔ ¬ Ended f (rs ++ [r]) := by
  rw [ended_snoc]
  rcases hexits : r.exits with - | -
  · simp [h]
  · cases c <;> simp [Child.exit]

section turns

variable {cfg : Config} {f : Forked} {c₁ c₂ : ℤ} {rs : List Round}

/-- **Turns are passes**: the tables are those of the passes of the rounds,
and the child runs until one of the rounds ends it. -/
theorem run_turns {s : Session} {outs : List (List Output)}
    (h : run (turn (Session.waits f) (Session.poll cfg)) (Session.start f c₁ c₂).state rs =
      .ok (s, outs)) :
    run (midiEventPass cfg) (initial c₁ c₂) (passes rs) = .ok (s.state, outs.flatten) ∧
      (s.child = .running ↔ ¬ Ended f rs) := by
  refine run_induction (C := fun _ _ => True) (fun rs outs s =>
    run (midiEventPass cfg) (initial c₁ c₂) (passes rs) = .ok (s.state, outs.flatten) ∧
      (s.child = .running ↔ ¬ Ended f rs)) ?_ ?_ (guarded_of_forall fun _ _ => trivial) h
  · refine ⟨rfl, ?_⟩
    show (if f.pid < 0 then Child.gone else Child.running) = .running ↔ ¬ (f.pid < 0 ∨ _)
    by_cases hpid : f.pid < 0 <;> simp [hpid]
  · rintro rs outs s r s' o - ⟨hrun, hchild⟩ - hturn
    have hpoll : (s.waits f r).1.poll cfg r = .ok (s', o) := hturn
    rw [poll_eq] at hpoll
    rcases hpasses : run (midiEventPass cfg) s.state r.passes with err | ⟨state, os⟩
    · have herror : run (midiEventPass cfg) (s.waits f r).1.state r.passes = .error err := hpasses
      rw [herror] at hpoll
      cases hpoll
    · have hok : run (midiEventPass cfg) (s.waits f r).1.state r.passes = .ok (state, os) := hpasses
      rw [hok] at hpoll
      cases hpoll
      constructor
      · rw [passes_snoc, run_append_of_ok _ _ hrun, hpasses, List.flatten_append]
        show Except.ok (state, outs.flatten ++ os) = .ok (state, outs.flatten ++ (os ++ []))
        rw [List.append_nil]
      · show (waitpid f.pid (if r.exits then s.child.exit else s.child)).2 = .running ↔ _
        rw [waitpid_running_iff, tested_running_iff hchild]

/-- The program reaches the tables. -/
def Session.Reached (cfg : Config) (c₁ c₂ : ℤ) (s : Session) : Prop :=
  ∃ ps outs, run (midiEventPass cfg) (initial c₁ c₂) ps = .ok (s.state, outs)

theorem turn_ok (hbad : cfg.maxBadness ≠ 0) (f : Forked) (s : Session) (r : Round)
    (hs : s.Reached cfg c₁ c₂) : ∃ s' o, turn (Session.waits f) (Session.poll cfg) s r =
      .ok (s', o) ∧ s'.Reached cfg c₁ c₂ := by
  obtain ⟨ps, outs, hrun⟩ := hs
  obtain ⟨state, os, hboth⟩ : ∃ state os,
      run (midiEventPass cfg) (initial c₁ c₂) (ps ++ r.passes) = .ok (state, os) :=
    run_ok hbad _
  have hsplit := hboth
  rw [run_append_of_ok _ _ hrun] at hsplit
  rcases hpasses : run (midiEventPass cfg) s.state r.passes with err | ⟨state', os'⟩
  · rw [hpasses] at hsplit
    cases hsplit
  · rw [hpasses] at hsplit
    cases hsplit
    refine ⟨⟨(s.waits f r).1.child, state'⟩, os', ?_, ps ++ r.passes, _, hboth⟩
    show (s.waits f r).1.poll cfg r = _
    have hok : run (midiEventPass cfg) (s.waits f r).1.state r.passes = .ok (state', os') := hpasses
    rw [poll_eq, hok]
    rfl

/-- The turns run on any rounds. -/
theorem turns_ok (hbad : cfg.maxBadness ≠ 0) (f : Forked) (c₁ c₂ : ℤ) (rs : List Round) :
    ∃ s outs, run (turn (Session.waits f) (Session.poll cfg)) (Session.start f c₁ c₂).state rs =
      .ok (s, outs) := by
  obtain ⟨s, outs, h, -⟩ := run_total (Session.Reached cfg c₁ c₂)
    (s := (Session.start f c₁ c₂).state) ⟨[], [], rfl⟩ (turn_ok hbad f) rs
  exact ⟨s, outs, h⟩

/-- The loop runs on any rounds. -/
theorem session_ok (hbad : cfg.maxBadness ≠ 0) (f : Forked) (c₁ c₂ : ℤ) (rs : List Round) :
    ∃ l outs, run (session cfg f) (Session.start f c₁ c₂) rs = .ok (l, outs) :=
  run_loop_total (Session.Reached cfg c₁ c₂) ⟨[], [], rfl⟩ (turn_ok hbad f) rs

/-- The test, in terms of the rounds: the child runs, or a note is held. -/
theorem goes_iff {s : Session} {outs : List (List Output)}
    (h : run (turn (Session.waits f) (Session.poll cfg)) (Session.start f c₁ c₂).state rs =
      .ok (s, outs)) (r : Round) :
    Goes (Session.waits f) s r ↔
      ¬ (Ended f (rs ++ [r]) ∧ (held .inst (actions c₁ c₂ (passes rs))).live = []) := by
  obtain ⟨hrun, hchild⟩ := run_turns h
  obtain ⟨htables, hwf⟩ := run_tables hrun
  have hlen : s.state.track2.length > 0 ↔
      (held .inst (actions c₁ c₂ (passes rs))).live ≠ [] := by
    have hperm : (s.state.track2.entries.map Entry.note).Perm
      (held .inst (actions c₁ c₂ (passes rs))).live := run_held htables .inst
    rw [(Holds.of_inRange hwf.range2).length, ← List.length_pos_iff, ← hperm.length_eq,
      List.length_map]
    omega
  show (decide _ || decide _) = true ↔ _
  rw [Bool.or_eq_true, decide_eq_true_eq, decide_eq_true_eq, f.waitpid_eq_zero_iff,
    tested_running_iff hchild, hlen, not_and_or]

/-! ### The return -/

/-- The child has ended when the round tests it, and no note is held. -/
def Leaves (f : Forked) (c₁ c₂ : ℤ) (past : List Round) (r : Round) : Prop :=
  Ended f (past ++ [r]) ∧ (held .inst (actions c₁ c₂ (passes past))).live = []

instance (f : Forked) (c₁ c₂ : ℤ) (past : List Round) (r : Round) :
    Decidable (Leaves f c₁ c₂ past r) :=
  inferInstanceAs (Decidable (_ ∧ _))

theorem left_iff_leaves (hbad : cfg.maxBadness ≠ 0) {l : Loop Session}
    {outs : List (Option (List Output))}
    (h : run (session cfg f) (Session.start f c₁ c₂) rs = .ok (l, outs)) :
    l.left = true ↔ ∃ past r, past ++ [r] <+: rs ∧ Leaves f c₁ c₂ past r := by
  rw [left_iff h]
  constructor
  · intro hnot
    by_contra hnone
    apply hnot
    intro past r hp s os hs
    exact (goes_iff hs r).mpr fun hleave => hnone ⟨past, r, hp, hleave⟩
  · rintro ⟨past, r, hp, hleave⟩ hguard
    obtain ⟨s, os, hs⟩ := turns_ok hbad f c₁ c₂ past
    exact (goes_iff hs r).mp (hguard past r hp s os hs) hleave

/-- **`main` returns** exactly if at some test the child has ended and the
events so far leave no note of the instrument held. -/
theorem session_returns_iff (cfg : Config) (hbad : cfg.maxBadness ≠ 0) (f : Forked) (c₁ c₂ : ℤ)
    (rs : List Round) :
    ∃ l outs, run (session cfg f) (Session.start f c₁ c₂) rs = .ok (l, outs) ∧
      (l.left = true ↔ ∃ past r, past ++ [r] <+: rs ∧ Leaves f c₁ c₂ past r) := by
  obtain ⟨l, outs, h⟩ := session_ok hbad f c₁ c₂ rs
  exact ⟨l, outs, h, left_iff_leaves hbad h⟩

/-- A note stays held until it is released. -/
theorem held_of_not_released {side : Side} {p : ℤ} {as bs : List Action}
    (hheld : p ∈ (held side as).live) (hnot : ∀ a ∈ bs, ∀ t, a ≠ .noteOff side p t) :
    p ∈ (held side (as ++ bs)).live := by
  induction bs using List.reverseRecOn with
  | nil =>
    rw [List.append_nil]
    exact hheld
  | append_singleton bs a ih =>
    have hbs := ih fun b hb => hnot b (List.mem_append_left _ hb)
    have ha := hnot a (by simp)
    rw [← List.append_assoc, held_snoc]
    cases a with
    | ignored => exact hbs
    | noteOn σ q t k =>
      rw [Held.step]
      split_ifs
      · exact List.mem_cons_of_mem q hbs
      · exact hbs
      · exact hbs
    | noteOff σ q t =>
      rw [Held.step]
      split_ifs with hσ hq
      · subst hσ
        have hne : p ≠ q := by
          rintro rfl
          exact ha t rfl
        exact (List.mem_erase_of_ne hne).mpr hbs
      · exact hbs
      · exact hbs

/-- **`main` waits for the last notes**: while a note of the instrument is
held it does not return, whatever else happens, so a lost release keeps it
in the loop for good; and if each note-on of the instrument has its own
later note-off, it returns at the first test after the child has ended. -/
theorem last_notes_awaited (cfg : Config) (hbad : cfg.maxBadness ≠ 0) (f : Forked) (c₁ c₂ : ℤ)
    (past : List Round) :
    (∀ p ∈ (held .inst (actions c₁ c₂ (passes past))).live, ∀ rest : List Round,
      Always (fun past r => ¬ Leaves f c₁ c₂ past r) past →
      (∀ q ∈ passes rest, ∀ t, q.action c₁ c₂ ≠ .noteOff .inst p t) →
      ∃ l outs, run (session cfg f) (Session.start f c₁ c₂) (past ++ rest) = .ok (l, outs) ∧
        l.left = false) ∧
    (Matched .inst (actions c₁ c₂ (passes past)) → ∀ r, Ended f (past ++ [r]) →
      ∃ l outs, run (session cfg f) (Session.start f c₁ c₂) (past ++ [r]) = .ok (l, outs) ∧
        l.left = true) := by
  constructor
  · intro p hp rest hpast hrest
    obtain ⟨l, outs, h⟩ := session_ok hbad f c₁ c₂ (past ++ rest)
    refine ⟨l, outs, h, Bool.eq_false_iff.mpr fun hleft => ?_⟩
    obtain ⟨before, r, hpre, hleave⟩ := (left_iff_leaves hbad h).mp hleft
    rcases List.prefix_or_prefix_of_prefix hpre (List.prefix_append past rest) with hin | hout
    · exact hpast before r hin hleave
    · rcases List.prefix_concat_iff.mp hout with rfl | hout
      · exact hpast before r List.prefix_rfl hleave
      · -- the note is held at the test
        obtain ⟨mid, rfl⟩ := hout
        have hmid : mid <+: rest := by
          rw [List.append_assoc] at hpre
          exact (List.prefix_append _ _).trans ((List.prefix_append_right_inj past).mp hpre)
        have hheld : p ∈ (held .inst (actions c₁ c₂ (passes (past ++ mid)))).live := by
          rw [passes_append, actions, List.map_append]
          refine held_of_not_released hp ?_
          intro a ha t
          obtain ⟨q, hq, rfl⟩ := List.mem_map.mp ha
          exact hrest q ((passes_mono hmid).subset hq) t
        rw [hleave.2] at hheld
        cases hheld
  · intro hmatched r hended
    obtain ⟨l, outs, h⟩ := session_ok hbad f c₁ c₂ (past ++ [r])
    refine ⟨l, outs, h, (left_iff_leaves hbad h).mpr ⟨past, r, List.prefix_rfl, hended, ?_⟩⟩
    obtain ⟨s, os, hs⟩ := turns_ok hbad f c₁ c₂ past
    have htables := (run_tables (run_turns hs).1).1
    have hzero : contents (s.state.tables.get .inst) = 0 :=
      contents_eq_zero (run_contents htables) hmatched
    have hnil : s.state.tables.get .inst = [] := by
      rw [← List.length_eq_zero_iff, ← card_contents, hzero]
      rfl
    have hperm := run_held htables .inst
    rw [hnil] at hperm
    exact hperm.symm.eq_nil

end turns

/-- One note, played and released; the child exits before the last test. -/
def shortSession : List Round :=
  [⟨false, some ((0, ⟨0, .noteon, 0, 60, 64, 0⟩), [])⟩,
    ⟨false, some ((10, ⟨1, .noteon, 0, 60, 64, 0⟩), [])⟩, ⟨false, none⟩,
    ⟨true, some ((500, ⟨0, .noteoff, 0, 60, 0, 480⟩), [(510, ⟨1, .noteoff, 0, 60, 0, 0⟩)])⟩,
    ⟨false, none⟩]

theorem shortSession_returns : ∃ l outs,
    run (session ⟨100, 10, 10, 5⟩ ⟨7, by decide⟩) (Session.start ⟨7, by decide⟩ 0 0) shortSession =
      .ok (l, outs) ∧ l.left = true := by
  obtain ⟨l, outs, h, hiff⟩ :=
    session_returns_iff ⟨100, 10, 10, 5⟩ (by decide) ⟨7, by decide⟩ 0 0 shortSession
  exact ⟨l, outs, h, hiff.mpr ⟨shortSession.take 4, ⟨false, none⟩, by decide, by decide⟩⟩

/-- The child exits, and the score releases its note, but the instrument does
not. -/
theorem shortSession_stuck : ∃ l outs,
    run (session ⟨100, 10, 10, 5⟩ ⟨7, by decide⟩) (Session.start ⟨7, by decide⟩ 0 0)
      (shortSession.take 2 ++ [⟨true, some ((500, ⟨0, .noteoff, 0, 60, 0, 480⟩), [])⟩,
        ⟨false, none⟩, ⟨false, none⟩]) = .ok (l, outs) ∧ l.left = false := by
  refine (last_notes_awaited ⟨100, 10, 10, 5⟩ (by decide) ⟨7, by decide⟩ 0 0
    (shortSession.take 2)).1 60 (by decide) _ (by decide) ?_
  exact List.forall_mem_singleton.mpr fun t h => by cases h

end MidiTraining
