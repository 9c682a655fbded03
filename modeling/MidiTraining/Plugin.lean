/-
MidiTraining/Plugin.lean

The processes of the plugin.

START runs `MIT` in the `QProcess` `proc2`; `MIT` forks, and its child plays
the score with `aplaymidi`.  STOP kills the process of `proc2`, which leaves
the player without its parent, and runs `stopMIT` there, which calls
`killall aplaymidi MIT`.  Between the two clicks, the steps of the processes
and the moment Qt notices that a process has ended, any order is possible.

A `World` is the process table and the process of `proc2`.  Each process
takes its own next step (`Image.step`): `MIT` goes through `main`, up to the
loop of `Session.lean`, whose child has exited when the table no longer has
it.  A step says what becomes of the process (`Effect`), so what an
invariant has to be checked against is four effects and three clicks
(`safe_step`).

In any order of steps there is at most one `MIT` and at most one player,
and nothing runs that `proc2` could not reach (`one_session`): `MIT` does
not return before its child has ended, and `killall` names the child both
before and after its `execlp`.  What STOP needs is three steps of `stopMIT`
(`stop_ends_session`).

That `proc2` starts a program while it is running one has no effect, that
`kill` ends the process at once and that both programs can be started is
taken from the documentation of `QProcess`.  `MIT` does not crash here: its
reads of the sequencer succeed, and `START` does not give it a `MAX_BADNESS`
of zero (`Sane`).  At a read that fails it would use a null pointer
(`MidiTraining.Sequencer`) and leave the player behind, with `proc2` at rest.
-/
import MidiTraining.Launch
import MidiTraining.Lib.Processes
import MidiTraining.Session

namespace MidiTraining

open FaultMachine Processes

/-! ### Processes -/

/-- What is sent to MuseScore on port `5282`. -/
inductive Osc
  | rewind
  | play
  | colorNote (m : Message)
  deriving DecidableEq, Repr

/-- How far `main` of `MIT.c` has got. -/
inductive Phase
  | launched (argv : List (List Char))
  | opened (a : Args)
  | connected (a : Args)
  | rewound (a : Args)
  | played (a : Args)
  | looping (a : Args) (f : Forked) (l : Loop Session)

/-- How far `main` of `stopMIT.c` has got. -/
inductive Stopping
  | started
  | played
  | killed
  deriving DecidableEq, Repr

/-- What a process runs.  A `child` is what `MIT` has forked, before its
`execlp`. -/
inductive Image
  | mit (phase : Phase)
  | child (argv : List (List Char))
  | aplaymidi (argv : List (List Char))
  | stopMIT (s : Stopping)

/-- The name of the process, which `killall` goes by: a `child` still has that
of its parent. -/
def Image.comm : Image → String
  | .mit _ => "MIT"
  | .child _ => "MIT"
  | .aplaymidi _ => "aplaymidi"
  | .stopMIT _ => "stopMIT"

/-- The arguments of `execlp`. -/
def playerArgv (a : Args) : List (List Char) :=
  ["aplaymidi".toList, a.play, "-p".toList, "FloF Sequencer:0".toList]

/-- What is left to the surroundings in a step: whether the call that is made
succeeds, and what `poll` reports. -/
structure Env where
  ok : Bool
  call : Option ((ℤ × Event) × List (ℤ × Event))
  deriving DecidableEq, Repr

/-- What becomes of a process in a step. -/
inductive Effect
  | exits
  | becomes (a : Image)
  | forks (parent : Forked → Image) (child : Image)
  | killall (names : List String) (a : Image)

/-- `fork` reports that it failed. -/
def Forked.failed : Forked := ⟨-1, by decide⟩

/-- `main` enters the loop.  `atoi` is exact, as if every argument fitted into
an `int`. -/
def Phase.enter (a : Args) (f : Forked) : Image :=
  .mit (.looping a f (Session.start f (atoi a.trackPart) (atoi a.trackInst)))

/-- A step of `main` of `MIT.c`; `alive` tells the processes that run. -/
def Phase.step (alive : ℕ → Bool) (env : Env) : Phase → Effect × List Osc
  | .launched argv =>
    match readArgs argv with
    | none => (.exits, [])
    | some a =>
      -- `open_seq` calls `exit(1)` on an error
      (if env.ok then .becomes (.mit (.opened a)) else .exits, [])
  | .opened a => (.becomes (.mit (.connected a)), [])
  | .connected a => (.becomes (.mit (.rewound a)), [.rewind])
  | .rewound a => (.becomes (.mit (.played a)), [.play])
  | .played a =>
    (if env.ok then .forks (Phase.enter a) (.child (playerArgv a))
      else .becomes (Phase.enter a Forked.failed), [])
  | .looping a f l =>
    match session a.config f l ⟨!alive f.pid.toNat, env.call⟩ with
    | .error _ => (.exits, [])
    | .ok (l', outs) =>
      (if l'.left then .exits else .becomes (.mit (.looping a f l')),
        ((outs.getD []).flatMap Output.sent).map Osc.colorNote)

/-- A step of `main` of `stopMIT.c`. -/
def Stopping.step : Stopping → Effect × List Osc
  | .started => (.becomes (.stopMIT .played), [.play])
  | .played => (.killall ["aplaymidi", "MIT"] (.stopMIT .killed), [])
  | .killed => (.exits, [])

/-- A step of a process.  A child whose `execlp` fails returns from `main`. -/
def Image.step (alive : ℕ → Bool) (env : Env) : Image → Effect × List Osc
  | .mit phase => phase.step alive env
  | .child argv => (if env.ok then .becomes (.aplaymidi argv) else .exits, [])
  | .aplaymidi _ => (.exits, [])
  | .stopMIT s => s.step

/-! ### The plugin -/

/-- The processes, and the one that `proc2` runs. -/
structure World where
  procs : Procs Image
  proc2 : Option ℕ

/-- Whether a process runs. -/
def World.alive (w : World) (pid : ℕ) : Bool := (w.procs.image pid).isSome

/-- The effect of a step of a process. -/
def World.apply (w : World) (pid : ℕ) : Effect → World
  | .exits => { w with procs := w.procs.exit pid }
  | .becomes a => { w with procs := w.procs.exec pid a }
  | .forks parent child =>
    have hpid : (w.procs.next : ℤ) ≠ 0 := Int.ofNat_ne_zero.mpr w.procs.pos.ne'
    { w with procs := (w.procs.exec pid (parent ⟨w.procs.next, hpid⟩)).spawn child }
  | .killall names a =>
    { w with procs := (w.procs.exec pid a).signal fun b => b.comm ∈ names }

/-- What can happen. -/
inductive Act
  /-- A click on START; the arguments are those of the text fields. -/
  | start (argv : List (List Char))
  /-- A click on STOP. -/
  | stop
  /-- Qt notices that the process of `proc2` has ended. -/
  | notice
  /-- A process takes a step. -/
  | advance (pid : ℕ) (env : Env)
  deriving DecidableEq, Repr

/-- What happens then: `proc2.start` has no effect while `proc2` runs, and
`kill` and `waitForFinished` leave it without a process. -/
def World.step (w : World) : Act → World × List Osc
  | .start argv =>
    match w.proc2 with
    | some _ => (w, [])
    | none => (⟨w.procs.spawn (.mit (.launched argv)), some w.procs.next⟩, [])
  | .stop =>
    match w.proc2 with
    | some pid => (⟨(w.procs.exit pid).spawn (.stopMIT .started), some w.procs.next⟩, [])
    | none => (⟨w.procs.spawn (.stopMIT .started), some w.procs.next⟩, [])
  | .notice =>
    match w.proc2 with
    | some pid => (if w.alive pid then w else { w with proc2 := none }, [])
    | none => (w, [])
  | .advance pid env =>
    match w.procs.image pid with
    | some a => (w.apply pid (a.step w.alive env).1, (a.step w.alive env).2)
    | none => (w, [])

/-- Qt notices nothing while the process runs. -/
theorem World.notice_of_running {w : World} {q : ℕ} {a : Image} (hproc : w.proc2 = some q)
    (ha : w.procs.image q = some a) : w.step .notice = (w, []) := by
  have halive : w.alive q = true := by
    rw [World.alive, ha]
    rfl
  rw [World.step, hproc]
  show (if w.alive q = true then w else _, _) = _
  rw [if_pos halive]

theorem World.notice_of_ended {w : World} {q : ℕ} (hproc : w.proc2 = some q)
    (hq : w.procs.image q = none) : w.step .notice = (⟨w.procs, none⟩, []) := by
  have hdead : w.alive q = false := by
    rw [World.alive, hq]
    rfl
  rw [World.step, hproc]
  show (if w.alive q = true then w else _, _) = _
  rw [hdead]
  rfl

/-- The plugin is opened. -/
def World.opened : World := ⟨Procs.empty, none⟩

/-- The plugin, as a machine that never faults. -/
def plugin (w : World) (a : Act) : Except Empty (World × List Osc) := .ok (w.step a)

/-! ### What is safe -/

/-- A process that plays the score, or is about to. -/
def Image.IsPlayer : Image → Prop
  | .child _ => True
  | .aplaymidi _ => True
  | _ => False

/-- A process that will see to the end of the player `pid`: its parent, while
it waits for it, or a `stopMIT` that is still to call `killall`. -/
def Image.AnswersFor (pid : ℕ) : Image → Prop
  | .mit (.looping _ f l) => f.pid = pid ∧ l.state.child = .running
  | .stopMIT s => s ≠ .killed
  | _ => False

/-- The arguments do not make `getcolor` divide by zero. -/
def Sane (argv : List (List Char)) : Prop := ∀ a ∈ readArgs argv, a.config.maxBadness ≠ 0

instance (argv : List (List Char)) : Decidable (Sane argv) :=
  inferInstanceAs (Decidable (∀ a ∈ readArgs argv, a.config.maxBadness ≠ 0))

/-- `main` of `MIT.c` is in a state it reaches. -/
def Phase.Sound : Phase → Prop
  | .launched argv => Sane argv
  | .opened a => a.config.maxBadness ≠ 0
  | .connected a => a.config.maxBadness ≠ 0
  | .rewound a => a.config.maxBadness ≠ 0
  | .played a => a.config.maxBadness ≠ 0
  | .looping a _ l => a.config.maxBadness ≠ 0 ∧ l.left = false ∧
      l.state.Reached a.config (atoi a.trackPart) (atoi a.trackInst)

/-- What the process runs is in a state it reaches. -/
def Image.Sound : Image → Prop
  | .mit phase => phase.Sound
  | _ => True

/-- The processes are those of one session. -/
structure Safe (w : World) : Prop where
  /-- `proc2` runs whatever is not a player. -/
  main : ∀ pid a, w.procs.image pid = some a → ¬ a.IsPlayer → w.proc2 = some pid ∧ a.Sound
  /-- What it runs answers for the player. -/
  player : ∀ pid a, w.procs.image pid = some a → a.IsPlayer →
    ∃ q b, w.proc2 = some q ∧ w.procs.image q = some b ∧ b.AnswersFor pid
  alone : ∀ pid pid' a a', w.procs.image pid = some a → w.procs.image pid' = some a' →
    a.IsPlayer → a'.IsPlayer → pid = pid'

/-- With `proc2` at rest nothing runs. -/
theorem Safe.nothing {w : World} (h : Safe w) (hrest : w.proc2 = none) (pid : ℕ) :
    w.procs.image pid = none := by
  rcases ha : w.procs.image pid with - | a
  · rfl
  · exfalso
    by_cases hplayer : a.IsPlayer
    · obtain ⟨q, b, hq, -⟩ := h.player pid a ha hplayer
      rw [hrest] at hq
      cases hq
    · have hpid := (h.main pid a ha hplayer).1
      rw [hrest] at hpid
      cases hpid

/-- No player runs if the process of `proc2` answers for none. -/
theorem Safe.no_player {w : World} (h : Safe w) {q : ℕ} (hq : w.proc2 = some q)
    (hno : ∀ b, w.procs.image q = some b → ∀ pid, ¬ b.AnswersFor pid) {pid : ℕ} {a : Image}
    (ha : w.procs.image pid = some a) : ¬ a.IsPlayer := by
  intro hplayer
  obtain ⟨q', b, hq', hb, hans⟩ := h.player pid a ha hplayer
  obtain rfl : q = q' := Option.some_inj.mp (hq.symm.trans hq')
  exact hno b hb pid hans

/-- What runs beside the process of `proc2` is a player. -/
theorem Safe.others {w : World} (h : Safe w) {q : ℕ} (hq : w.proc2 = some q) {pid : ℕ} {a : Image}
    (ha : w.procs.image pid = some a) (hne : pid ≠ q) : a.IsPlayer := by
  by_contra hnot
  have hpid := (h.main pid a ha hnot).1
  exact hne (Option.some_inj.mp (hpid.symm.trans hq))

/-! ### Steps of processes -/

/-- What an effect must not do: end a process that answers for a player, or
leave a player to none. -/
def Effect.Keeps (alive : ℕ → Bool) (a : Image) : Effect → Prop
  | .exits => ∀ p, alive p = true → ¬ a.AnswersFor p
  | .becomes b => (b.IsPlayer ↔ a.IsPlayer) ∧ b.Sound ∧
      ∀ p, alive p = true → a.AnswersFor p → b.AnswersFor p
  | .forks parent child => ¬ a.IsPlayer ∧ (∀ p, ¬ a.AnswersFor p) ∧ child.IsPlayer ∧
      ∀ f : Forked, ¬ (parent f).IsPlayer ∧ (parent f).Sound ∧
        ∀ p : ℕ, f.pid = p → 0 < p → (parent f).AnswersFor p
  | .killall names b => ¬ a.IsPlayer ∧ ¬ b.IsPlayer ∧ b.Sound ∧
      ∀ c : Image, c.IsPlayer → c.comm ∈ names

/-- The loop does not return while its child runs. -/
theorem looping_keeps {alive : ℕ → Bool} {env : Env} {a : Args} {f : Forked} {l : Loop Session}
    (h : (Phase.looping a f l).Sound) :
    ((Phase.looping a f l).step alive env).1.Keeps alive (.mit (.looping a f l)) := by
  obtain ⟨hbad, hleft, hreached⟩ := h
  obtain ⟨s, left⟩ := l
  obtain rfl : left = false := hleft
  -- a player that `f` stands for keeps the loop going
  have hrunning (p : ℕ) (hp : alive p = true) (hf : f.pid = p) (hchild : s.child = .running) :
      s.waits f ⟨!alive f.pid.toNat, env.call⟩ = (s, true) := by
    have halive : alive f.pid.toNat = true := by
      rw [hf]
      exact hp
    rw [halive]
    exact waits_of_running hchild env.call
  rcases hgo : (s.waits f ⟨!alive f.pid.toNat, env.call⟩).2 with - | -
  · have hstep : session a.config f ⟨s, false⟩ ⟨!alive f.pid.toNat, env.call⟩ = _ :=
      loop_of_stop hgo
    rw [Phase.step, hstep]
    rintro p hp ⟨hf, hchild⟩
    rw [hrunning p hp hf hchild] at hgo
    cases hgo
  · obtain ⟨s', o, hturn, hreached'⟩ :=
      turn_ok hbad f s ⟨!alive f.pid.toNat, env.call⟩ hreached
    have hstep : session a.config f ⟨s, false⟩ ⟨!alive f.pid.toNat, env.call⟩ =
        .ok (⟨s', false⟩, some o) := by
      show loop _ _ _ _ = _
      rw [loop_of_go hgo, hturn]
      rfl
    rw [Phase.step, hstep]
    refine ⟨Iff.rfl, ⟨hbad, rfl, hreached'⟩, ?_⟩
    rintro p hp ⟨hf, hchild⟩
    refine ⟨hf, ?_⟩
    show s'.child = .running
    rw [poll_child hturn, hrunning p hp hf hchild]
    exact hchild

/-- **Each step of a process** keeps what runs together. -/
theorem Image.step_keeps {alive : ℕ → Bool} {env : Env} {a : Image} (h : a.Sound) :
    (a.step alive env).1.Keeps alive a := by
  cases a with
  | child argv =>
    show Effect.Keeps alive _ (if env.ok then _ else _)
    split_ifs
    · exact ⟨Iff.rfl, trivial, fun _ _ hans => hans.elim⟩
    · exact fun _ _ hans => hans
  | aplaymidi argv => exact fun _ _ hans => hans
  | stopMIT s =>
    cases s with
    | started => exact ⟨Iff.rfl, trivial, fun _ _ _ => Stopping.noConfusion⟩
    | played =>
      refine ⟨not_false, not_false, trivial, ?_⟩
      intro c hc
      cases c with
      | mit => exact hc.elim
      | stopMIT => exact hc.elim
      | child => exact List.mem_cons_of_mem _ (List.mem_singleton_self _)
      | aplaymidi => exact List.mem_cons_self
    | killed => exact fun _ _ hans => hans rfl
  | mit phase =>
    cases phase with
    | launched argv =>
      show Effect.Keeps alive _ (Phase.step alive env (.launched argv)).1
      rw [Phase.step]
      rcases hread : readArgs argv with - | a
      · exact fun _ _ hans => hans
      · show Effect.Keeps alive _ (if env.ok then _ else _)
        split_ifs
        · exact ⟨Iff.rfl, h a hread, fun _ _ hans => hans.elim⟩
        · exact fun _ _ hans => hans
    | opened a => exact ⟨Iff.rfl, h, fun _ _ hans => hans.elim⟩
    | connected a => exact ⟨Iff.rfl, h, fun _ _ hans => hans.elim⟩
    | rewound a => exact ⟨Iff.rfl, h, fun _ _ hans => hans.elim⟩
    | played a =>
      have hsound (f : Forked) : (Phase.enter a f).Sound := ⟨h, rfl, [], [], rfl⟩
      show Effect.Keeps alive _ (if env.ok then _ else _)
      split_ifs
      · refine ⟨not_false, fun _ hans => hans, trivial, ?_⟩
        intro f
        refine ⟨not_false, hsound f, ?_⟩
        intro p hf hp
        refine ⟨hf, ?_⟩
        show (if f.pid < 0 then Child.gone else Child.running) = .running
        exact if_neg (by omega)
      · exact ⟨Iff.rfl, hsound _, fun _ _ hans => hans.elim⟩
    | looping a f l => exact looping_keeps h

theorem World.alive_of_image {w : World} {p : ℕ} {c : Image} (h : w.procs.image p = some c) :
    w.alive p = true := by
  rw [World.alive, h]
  rfl

section effects

variable {w : World} (h : Safe w) {pid : ℕ} {a : Image} (ha : w.procs.image pid = some a)

include h ha

/-- A process that ends answers for no player. -/
theorem Safe.exits (hkeeps : Effect.exits.Keeps w.alive a) : Safe (w.apply pid .exits) := by
  refine ⟨?_, ?_, ?_⟩
  · intro p c hc hnot
    exact h.main p c (Procs.image_exit_iff.mp hc).2 hnot
  · intro p c hc hplayer
    have hbefore := (Procs.image_exit_iff.mp hc).2
    obtain ⟨q, b, hq, hb, hans⟩ := h.player p c hbefore hplayer
    refine ⟨q, b, hq, Procs.image_exit_iff.mpr ⟨?_, hb⟩, hans⟩
    rintro rfl
    obtain rfl : a = b := Option.some_inj.mp (ha.symm.trans hb)
    exact hkeeps p (World.alive_of_image hbefore) hans
  · intro p p' c c' hc hc'
    exact h.alone p p' c c' (Procs.image_exit_iff.mp hc).2 (Procs.image_exit_iff.mp hc').2

/-- A process that goes on answers for whom it answered before. -/
theorem Safe.becomes {b : Image} (hkeeps : (Effect.becomes b).Keeps w.alive a) :
    Safe (w.apply pid (.becomes b)) := by
  obtain ⟨hsame, hsound, hanswers⟩ := hkeeps
  -- a player is one of the players before
  have hbefore {p : ℕ} {c : Image} (hc : (w.procs.exec pid b).image p = some c)
      (hplayer : c.IsPlayer) : ∃ c', w.procs.image p = some c' ∧ c'.IsPlayer := by
    rcases (Procs.image_exec_iff ha).mp hc with ⟨rfl, rfl⟩ | ⟨-, hc⟩
    · exact ⟨a, ha, hsame.mp hplayer⟩
    · exact ⟨c, hc, hplayer⟩
  refine ⟨?_, ?_, ?_⟩
  · intro p c hc hnot
    rcases (Procs.image_exec_iff ha).mp hc with ⟨rfl, rfl⟩ | ⟨-, hc⟩
    · exact ⟨(h.main p a ha fun hplayer => hnot (hsame.mpr hplayer)).1, hsound⟩
    · exact h.main p c hc hnot
  · intro p c hc hplayer
    obtain ⟨c', hc', hplayer'⟩ := hbefore hc hplayer
    obtain ⟨q, d, hq, hd, hans⟩ := h.player p c' hc' hplayer'
    rcases eq_or_ne q pid with rfl | hne
    · obtain rfl : a = d := Option.some_inj.mp (ha.symm.trans hd)
      exact ⟨q, b, hq, (Procs.image_exec_iff ha).mpr (Or.inl ⟨rfl, rfl⟩),
        hanswers p (World.alive_of_image hc') hans⟩
    · exact ⟨q, d, hq, (Procs.image_exec_iff ha).mpr (Or.inr ⟨hne, hd⟩), hans⟩
  · intro p p' c c' hc hc' hplayer hplayer'
    obtain ⟨d, hd, hdplayer⟩ := hbefore hc hplayer
    obtain ⟨d', hd', hdplayer'⟩ := hbefore hc' hplayer'
    exact h.alone p p' d d' hd hd' hdplayer hdplayer'

/-- No player runs while `proc2` runs a process that answers for none. -/
theorem Safe.no_player_beside (hmain : ¬ a.IsPlayer) (hnone : ∀ p, ¬ a.AnswersFor p) {p : ℕ}
    {c : Image} (hc : w.procs.image p = some c) : ¬ c.IsPlayer := by
  refine h.no_player (h.main pid a ha hmain).1 ?_ hc
  intro b hb
  obtain rfl : a = b := Option.some_inj.mp (ha.symm.trans hb)
  exact hnone

/-- The child of a process is the only player, and its parent answers for
it. -/
theorem Safe.forks {parent : Forked → Image} {child : Image}
    (hkeeps : (Effect.forks parent child).Keeps w.alive a) :
    Safe (w.apply pid (.forks parent child)) := by
  obtain ⟨hmain, hnone, hchild, hparent⟩ := hkeeps
  have hpid := (h.main pid a ha hmain).1
  have hzero : (w.procs.next : ℤ) ≠ 0 := Int.ofNat_ne_zero.mpr w.procs.pos.ne'
  obtain ⟨hnot, hsound, hanswers⟩ := hparent ⟨w.procs.next, hzero⟩
  -- the images: the child, the parent, and those of the others
  have himage {p : ℕ} {c : Image}
      (hc : (w.apply pid (.forks parent child)).procs.image p = some c) :
      (p = w.procs.next ∧ child = c) ∨ (p = pid ∧ parent ⟨w.procs.next, hzero⟩ = c) ∨
        w.procs.image p = some c := by
    rcases Procs.image_spawn_iff.mp hc with hc | hc
    · exact Or.inl hc
    · rcases (Procs.image_exec_iff ha).mp hc with hc | ⟨-, hc⟩
      · exact Or.inr (Or.inl hc)
      · exact Or.inr (Or.inr hc)
  have hplayers {p : ℕ} {c : Image}
      (hc : (w.apply pid (.forks parent child)).procs.image p = some c) (hplayer : c.IsPlayer) :
      p = w.procs.next := by
    rcases himage hc with ⟨rfl, -⟩ | ⟨-, rfl⟩ | hc
    · rfl
    · exact absurd hplayer hnot
    · exact absurd hplayer (h.no_player_beside ha hmain hnone hc)
  refine ⟨?_, ?_, ?_⟩
  · intro p c hc hnotplayer
    rcases himage hc with ⟨-, rfl⟩ | ⟨rfl, rfl⟩ | hc
    · exact absurd hchild hnotplayer
    · exact ⟨hpid, hsound⟩
    · exact h.main p c hc hnotplayer
  · intro p c hc hplayer
    obtain rfl := hplayers hc hplayer
    refine ⟨pid, parent ⟨w.procs.next, hzero⟩, hpid, ?_, hanswers _ rfl w.procs.pos⟩
    exact Procs.image_spawn_iff.mpr
      (Or.inr ((Procs.image_exec_iff ha).mpr (Or.inl ⟨rfl, rfl⟩)))
  · intro p p' c c' hc hc' hplayer hplayer'
    exact (hplayers hc hplayer).trans (hplayers hc' hplayer').symm

/-- After a `killall` that names the players, none is left. -/
theorem Safe.killall {names : List String} {b : Image}
    (hkeeps : (Effect.killall names b).Keeps w.alive a) :
    Safe (w.apply pid (.killall names b)) := by
  obtain ⟨hmain, hnot, hsound, hkilled⟩ := hkeeps
  have himage {p : ℕ} {c : Image}
      (hc : (w.apply pid (.killall names b)).procs.image p = some c) :
      ¬ c.IsPlayer ∧ ((p = pid ∧ b = c) ∨ w.procs.image p = some c) := by
    obtain ⟨hc, hspared⟩ := Procs.image_signal_iff.mp hc
    refine ⟨fun hplayer => of_decide_eq_false hspared (hkilled c hplayer), ?_⟩
    rcases (Procs.image_exec_iff ha).mp hc with hc | ⟨-, hc⟩
    · exact Or.inl hc
    · exact Or.inr hc
  refine ⟨?_, ?_, ?_⟩
  · intro p c hc hnotplayer
    rcases (himage hc).2 with ⟨rfl, rfl⟩ | hc
    · exact ⟨(h.main p a ha hmain).1, hsound⟩
    · exact h.main p c hc hnotplayer
  · intro p c hc hplayer
    exact absurd hplayer (himage hc).1
  · intro p p' c c' hc _ hplayer
    exact absurd hplayer (himage hc).1

/-- What an effect keeps together. -/
theorem Safe.apply {e : Effect} (hkeeps : e.Keeps w.alive a) : Safe (w.apply pid e) := by
  cases e with
  | exits => exact h.exits ha hkeeps
  | becomes b => exact h.becomes ha hkeeps
  | forks parent child => exact h.forks ha hkeeps
  | killall names b => exact h.killall ha hkeeps

end effects

/-! ### Clicks -/

/-- A process of `proc2` that is no player joins a world without others. -/
theorem Safe.launch {P : Procs Image} {a : Image} (hnot : ¬ a.IsPlayer) (hsound : a.Sound)
    (hnone : ∀ pid b, P.image pid = some b → b.IsPlayer ∧ a.AnswersFor pid)
    (halone : ∀ pid pid' b b', P.image pid = some b → P.image pid' = some b' → pid = pid') :
    Safe ⟨P.spawn a, some P.next⟩ := by
  refine ⟨?_, ?_, ?_⟩
  · intro pid b hb hnotplayer
    rcases Procs.image_spawn_iff.mp hb with ⟨rfl, rfl⟩ | hb
    · exact ⟨rfl, hsound⟩
    · exact absurd (hnone pid b hb).1 hnotplayer
  · intro pid b hb hplayer
    rcases Procs.image_spawn_iff.mp hb with ⟨-, rfl⟩ | hb
    · exact absurd hplayer hnot
    · exact ⟨P.next, a, rfl, Procs.image_spawn_iff.mpr (Or.inl ⟨rfl, rfl⟩), (hnone pid b hb).2⟩
  · intro pid pid' b b' hb hb' hplayer hplayer'
    rcases Procs.image_spawn_iff.mp hb with ⟨-, rfl⟩ | hb
    · exact absurd hplayer hnot
    · rcases Procs.image_spawn_iff.mp hb' with ⟨-, rfl⟩ | hb'
      · exact absurd hplayer' hnot
      · exact halone pid pid' b b' hb hb'

/-- The arguments of a click on START do not make `getcolor` divide by
zero. -/
def Act.Sane : Act → Prop
  | .start argv => MidiTraining.Sane argv
  | _ => True

instance : (x : Act) → Decidable x.Sane
  | .start argv => inferInstanceAs (Decidable (MidiTraining.Sane argv))
  | .stop => isTrue trivial
  | .notice => isTrue trivial
  | .advance .. => isTrue trivial

section clicks

variable {w : World} (h : Safe w)

include h

/-- A click on START. -/
theorem Safe.start {argv : List (List Char)} (hsane : MidiTraining.Sane argv) :
    Safe (w.step (.start argv)).1 := by
  rcases hproc : w.proc2 with - | q
  · rw [World.step, hproc]
    refine Safe.launch not_false hsane ?_ ?_
    · intro pid b hb
      rw [h.nothing hproc pid] at hb
      cases hb
    · intro pid _ b _ hb
      rw [h.nothing hproc pid] at hb
      cases hb
  · rw [World.step, hproc]
    exact h

/-- A click on STOP. -/
theorem Safe.stop : Safe (w.step .stop).1 := by
  rcases hproc : w.proc2 with - | q
  · rw [World.step, hproc]
    refine Safe.launch not_false trivial ?_ ?_
    · intro pid b hb
      rw [h.nothing hproc pid] at hb
      cases hb
    · intro pid _ b _ hb
      rw [h.nothing hproc pid] at hb
      cases hb
  · rw [World.step, hproc]
    -- the process of `proc2` is gone, what is left are players
    have hplayer {pid : ℕ} {b : Image} (hb : (w.procs.exit q).image pid = some b) :
        b.IsPlayer := by
      obtain ⟨hne, hb⟩ := Procs.image_exit_iff.mp hb
      exact h.others hproc hb hne
    refine Safe.launch not_false trivial ?_ ?_
    · exact fun pid b hb => ⟨hplayer hb, Stopping.noConfusion⟩
    · intro pid pid' b b' hb hb'
      exact h.alone pid pid' b b' (Procs.image_exit_iff.mp hb).2 (Procs.image_exit_iff.mp hb').2
        (hplayer hb) (hplayer hb')

/-- With the process of `proc2` nothing else runs any more. -/
theorem Safe.nothing_of_ended {q : ℕ} (hproc : w.proc2 = some q) (hq : w.procs.image q = none)
    {pid : ℕ} {b : Image} (hb : w.procs.image pid = some b) : False := by
  by_cases hplayer : b.IsPlayer
  · refine h.no_player hproc ?_ hb hplayer
    intro c hc
    rw [hq] at hc
    cases hc
  · have hpid := (h.main pid b hb hplayer).1
    obtain rfl : q = pid := Option.some_inj.mp (hproc.symm.trans hpid)
    rw [hq] at hb
    cases hb

/-- Qt looks at the process of `proc2`. -/
theorem Safe.notice : Safe (w.step .notice).1 := by
  rcases hproc : w.proc2 with - | q
  · rw [World.step, hproc]
    exact h
  · rcases hq : w.procs.image q with - | a
    · rw [World.notice_of_ended hproc hq]
      have hnone {pid : ℕ} {b : Image} (hb : w.procs.image pid = some b) : False :=
        h.nothing_of_ended hproc hq hb
      exact ⟨fun pid b hb => (hnone hb).elim, fun pid b hb => (hnone hb).elim,
        fun pid pid' b b' hb => (hnone hb).elim⟩
    · rw [World.notice_of_running hproc hq]
      exact h

/-- **Whatever happens**, the processes stay those of one session. -/
theorem safe_step {x : Act} (hx : x.Sane) : Safe (w.step x).1 := by
  cases x with
  | start argv => exact h.start hx
  | stop => exact h.stop
  | notice => exact h.notice
  | advance pid env =>
    rcases ha : w.procs.image pid with - | a
    · rw [World.step, ha]
      exact h
    · rw [World.step, ha]
      refine h.apply ha (Image.step_keeps ?_)
      cases a with
      | mit phase => exact (h.main pid _ ha not_false).2
      | stopMIT => trivial
      | child => trivial
      | aplaymidi => trivial

end clicks

theorem safe_opened : Safe World.opened :=
  ⟨fun _ _ h => (nomatch h), fun _ _ h => (nomatch h), fun _ _ _ _ h => (nomatch h)⟩

theorem step_of_plugin {w w' : World} {x : Act} {o : List Osc}
    (h : plugin w x = .ok (w', o)) : (w.step x).1 = w' ∧ (w.step x).2 = o :=
  Prod.ext_iff.mp (Except.ok.inj h)

theorem run_safe {w w' : World} (h : Safe w) {xs : List Act} (hxs : ∀ x ∈ xs, x.Sane)
    {outs : List (List Osc)} (hrun : run plugin w xs = .ok (w', outs)) : Safe w' := by
  refine run_induction (fun _ _ w => Safe w) h ?_ (guarded_of_forall hxs) hrun
  rintro xs outs w x w' o - hw hx hstep
  rw [← (step_of_plugin hstep).1]
  exact safe_step hw hx

/-! ### One session at a time -/

/-- The process takes a step. -/
def Act.advances (q : ℕ) : Act → Bool
  | .advance pid _ => pid = q
  | _ => false

/-- What runs in the place of `stopMIT` after so many of its steps. -/
def Stopping.stage : ℕ → Option Image
  | 0 => some (.stopMIT .started)
  | 1 => some (.stopMIT .played)
  | 2 => some (.stopMIT .killed)
  | _ => none

/-- The `stopMIT` of the process `q` has taken `n` steps; `proc2` runs it
until it has taken three. -/
structure Stops (q n : ℕ) (w : World) : Prop where
  issued : q < w.procs.next
  image : w.procs.image q = Stopping.stage n
  busy : n < 3 → w.proc2 = some q

theorem Stopping.stage_eq_none {n : ℕ} (h : 3 ≤ n) : stage n = none := by
  obtain ⟨m, rfl⟩ := Nat.exists_eq_add_of_le' h
  rfl

theorem Stopping.stage_eq_some {n : ℕ} {a : Image} (h : stage n = some a) :
    n < 3 ∧ ∃ s, a = .stopMIT s := by
  match n with
  | 0 => exact ⟨by decide, _, (Option.some_inj.mp h).symm⟩
  | 1 => exact ⟨by decide, _, (Option.some_inj.mp h).symm⟩
  | 2 => exact ⟨by decide, _, (Option.some_inj.mp h).symm⟩
  | n + 3 => cases h

theorem World.apply_proc2 (w : World) (pid : ℕ) (e : Effect) : (w.apply pid e).proc2 = w.proc2 := by
  cases e <;> rfl

theorem World.next_le_apply (w : World) (pid : ℕ) (e : Effect) :
    w.procs.next ≤ (w.apply pid e).procs.next := by
  cases e with
  | forks parent child => exact Nat.le_succ w.procs.next
  | exits => exact Nat.le_refl _
  | becomes b => exact Nat.le_refl _
  | killall names b => exact Nat.le_refl _

/-- The steps of the others leave a process alone that no `killall` names. -/
theorem World.apply_image_of_ne {w : World} {pid q : ℕ} {e : Effect} (hne : q ≠ pid)
    (hissued : q < w.procs.next)
    (hspared : ∀ names b, e = .killall names b → ∀ c, w.procs.image q = some c → c.comm ∉ names) :
    (w.apply pid e).procs.image q = w.procs.image q := by
  cases e with
  | exits => exact Procs.image_exit_of_ne hne
  | becomes b => exact Procs.image_exec_of_ne hne
  | forks parent child =>
    have hnext (a : Image) : q ≠ (w.procs.exec pid a).next := Nat.ne_of_lt hissued
    exact (Procs.image_spawn_of_ne (hnext _)).trans (Procs.image_exec_of_ne hne)
  | killall names b =>
    show ((w.procs.exec pid b).image q).filter _ = _
    rw [Procs.image_exec_of_ne hne]
    rcases hc : w.procs.image q with - | c
    · rfl
    · exact Option.filter_eq_some_iff.mpr ⟨rfl, by simp [hspared names b rfl c hc]⟩

theorem Image.step_killall {alive : ℕ → Bool} {env : Env} {a b : Image} {names : List String}
    (h : (a.step alive env).1 = .killall names b) : names = ["aplaymidi", "MIT"] := by
  cases a with
  | child argv =>
    have h : (if env.ok then Effect.becomes (.aplaymidi argv) else .exits) = .killall names b := h
    split_ifs at h
  | aplaymidi argv => cases h
  | stopMIT s =>
    cases s with
    | started => cases h
    | played =>
      cases h
      rfl
    | killed => cases h
  | mit phase =>
    have h : (phase.step alive env).1 = .killall names b := h
    cases phase with
    | launched argv =>
      rw [Phase.step] at h
      rcases hread : readArgs argv with - | a
      · rw [hread] at h
        cases h
      · rw [hread] at h
        have h : (if env.ok then Effect.becomes (.mit (.opened a)) else .exits) =
          .killall names b := h
        split_ifs at h
    | opened a => cases h
    | connected a => cases h
    | rewound a => cases h
    | played a =>
      have h : (if env.ok then Effect.forks (Phase.enter a) (.child (playerArgv a))
        else .becomes (Phase.enter a Forked.failed)) = .killall names b := h
      split_ifs at h
    | looping a f l =>
      rw [Phase.step] at h
      rcases hsession : session a.config f l ⟨!alive f.pid.toNat, env.call⟩ with err | ⟨l', o⟩
      · rw [hsession] at h
        cases h
      · rw [hsession] at h
        have h : (if l'.left then Effect.exits else .becomes (.mit (.looping a f l'))) =
          .killall names b := h
        split_ifs at h

section stops

variable {q n : ℕ} {w : World} (h : Stops q n w)

include h

theorem Stops.start (argv : List (List Char)) : Stops q n (w.step (.start argv)).1 := by
  obtain ⟨hissued, himage, hbusy⟩ := h
  rcases hproc : w.proc2 with - | q'
  · rw [World.step, hproc]
    have hnext : q ≠ w.procs.next := Nat.ne_of_lt hissued
    refine ⟨Nat.lt_succ_of_lt hissued, ?_, ?_⟩
    · show (w.procs.spawn _).image q = _
      rw [Procs.image_spawn_of_ne hnext]
      exact himage
    · intro hn
      have hq := hbusy hn
      rw [hproc] at hq
      cases hq
  · rw [World.step, hproc]
    exact ⟨hissued, himage, hbusy⟩

/-- Qt notices no end before the third step. -/
theorem Stops.notice : Stops q n (w.step .notice).1 := by
  obtain ⟨hissued, himage, hbusy⟩ := h
  rcases hproc : w.proc2 with - | q'
  · rw [World.step, hproc]
    exact ⟨hissued, himage, hbusy⟩
  · rcases hq' : w.procs.image q' with - | a
    · rw [World.notice_of_ended hproc hq']
      refine ⟨hissued, himage, fun hn => ?_⟩
      obtain rfl : q = q' := Option.some_inj.mp ((hbusy hn).symm.trans hproc)
      rw [hq'] at himage
      match n with
      | 0 => cases himage
      | 1 => cases himage
      | 2 => cases himage
      | n + 3 => exact absurd hn (by omega)
    · rw [World.notice_of_running hproc hq']
      exact ⟨hissued, himage, hbusy⟩

/-- A step of `stopMIT` itself. -/
theorem Stops.own (env : Env) : Stops q (n + 1) (w.step (.advance q env)).1 := by
  obtain ⟨hissued, himage, hbusy⟩ := h
  match n with
  | 0 =>
    have hbefore : w.procs.image q = some (.stopMIT .started) := himage
    rw [World.step, hbefore]
    exact ⟨hissued, Procs.image_exec_self hbefore, fun _ => hbusy (by decide)⟩
  | 1 =>
    have hbefore : w.procs.image q = some (.stopMIT .played) := himage
    rw [World.step, hbefore]
    refine ⟨hissued, ?_, fun _ => hbusy (by decide)⟩
    show ((w.procs.exec q _).image q).filter _ = _
    rw [Procs.image_exec_self hbefore]
    rfl
  | 2 =>
    have hbefore : w.procs.image q = some (.stopMIT .killed) := himage
    rw [World.step, hbefore]
    exact ⟨hissued, Procs.image_exit_self, fun hn => absurd hn (by decide)⟩
  | n + 3 =>
    have hbefore : w.procs.image q = none := himage
    rw [World.step, hbefore]
    exact ⟨hissued, himage, fun hn => absurd hn (by omega)⟩

/-- A step of another process. -/
theorem Stops.other {pid : ℕ} (hne : q ≠ pid) (env : Env) :
    Stops q n (w.step (.advance pid env)).1 := by
  obtain ⟨hissued, himage, hbusy⟩ := h
  rcases ha : w.procs.image pid with - | a
  · rw [World.step, ha]
    exact ⟨hissued, himage, hbusy⟩
  · rw [World.step, ha]
    refine ⟨hissued.trans_le (w.next_le_apply pid _), ?_, ?_⟩
    · show (w.apply pid _).procs.image q = _
      rw [World.apply_image_of_ne hne hissued]
      · exact himage
      · intro names b he c hc
        rw [himage] at hc
        obtain ⟨-, s, rfl⟩ := Stopping.stage_eq_some hc
        rw [Image.step_killall he]
        show "stopMIT" ∉ ["aplaymidi", "MIT"]
        decide
    · show n < 3 → (w.apply pid _).proc2 = _
      rw [World.apply_proc2]
      exact hbusy

/-- **Other steps** do not touch `stopMIT`, and its own are counted. -/
theorem stops_step {x : Act} (hx : x ≠ .stop) :
    Stops q (n + if x.advances q then 1 else 0) (w.step x).1 := by
  cases x with
  | start argv => exact h.start argv
  | stop => exact absurd rfl hx
  | notice => exact h.notice
  | advance pid env =>
    rcases eq_or_ne q pid with rfl | hne
    · have hown : (Act.advance q env).advances q = true := decide_eq_true rfl
      rw [if_pos hown]
      exact h.own env
    · have hother : ¬ (Act.advance pid env).advances q = true := by
        simp [Act.advances, hne.symm]
      rw [if_neg hother, Nat.add_zero]
      exact h.other hne env

end stops

/-- A process that `proc2` has left is never again that of `proc2`. -/
theorem proc2_of_step {q : ℕ} {w : World} (hissued : q < w.procs.next) {x : Act} (hx : x ≠ .stop)
    (h : (w.step x).1.proc2 = some q) : w.proc2 = some q := by
  cases x with
  | start argv =>
    rcases hproc : w.proc2 with - | q' <;> rw [World.step, hproc] at h
    · obtain rfl : w.procs.next = q := Option.some_inj.mp h
      exact absurd hissued (Nat.lt_irrefl _)
    · exact hproc.symm.trans h
  | stop => exact absurd rfl hx
  | notice =>
    rcases hproc : w.proc2 with - | q'
    · rw [World.step, hproc] at h
      exact hproc.symm.trans h
    · rcases hq' : w.procs.image q' with - | a
      · rw [World.notice_of_ended hproc hq'] at h
        cases h
      · rw [World.notice_of_running hproc hq'] at h
        exact hproc.symm.trans h
  | advance pid env =>
    rcases ha : w.procs.image pid with - | a <;> rw [World.step, ha] at h
    · exact h
    · exact (World.apply_proc2 w pid _).symm.trans h

/-- While `proc2` runs `stopMIT`, no note is coloured. -/
theorem silent_step {q n : ℕ} {w : World} (hsafe : Safe w) (h : Stops q n w)
    (hproc : w.proc2 = some q) (x : Act) (m : Message) : Osc.colorNote m ∉ (w.step x).2 := by
  cases x with
  | start argv =>
    rw [World.step, hproc]
    exact List.not_mem_nil
  | stop =>
    rw [World.step, hproc]
    exact List.not_mem_nil
  | notice =>
    rw [World.step, hproc]
    exact List.not_mem_nil
  | advance pid env =>
    rcases ha : w.procs.image pid with - | a <;> rw [World.step, ha]
    · exact List.not_mem_nil
    · show Osc.colorNote m ∉ (a.step w.alive env).2
      cases a with
      | mit phase =>
        have hpid := (hsafe.main pid _ ha not_false).1
        obtain rfl : q = pid := Option.some_inj.mp (hproc.symm.trans hpid)
        rw [h.image] at ha
        obtain ⟨-, s, hs⟩ := Stopping.stage_eq_some ha
        cases hs
      | child argv => exact List.not_mem_nil
      | aplaymidi argv => exact List.not_mem_nil
      | stopMIT s =>
        cases s with
        | started => simp [Image.step, Stopping.step]
        | played => exact List.not_mem_nil
        | killed => exact List.not_mem_nil

/-- The steps of `stopMIT`, over a run without another STOP. -/
theorem run_stops {q n : ℕ} {w w' : World} (hsafe : Safe w) (h : Stops q n w) {ys : List Act}
    (hys : ∀ y ∈ ys, y ≠ .stop) (hsane : ∀ y ∈ ys, y.Sane) {outs : List (List Osc)}
    (hrun : run plugin w ys = .ok (w', outs)) :
    Safe w' ∧ Stops q (n + ys.countP (Act.advances q)) w' ∧
      (w'.proc2 = some q → ∀ o ∈ outs, ∀ m, Osc.colorNote m ∉ o) := by
  refine run_induction (fun ys outs w' => Safe w' ∧
    Stops q (n + ys.countP (Act.advances q)) w' ∧
    (w'.proc2 = some q → ∀ o ∈ outs, ∀ m, Osc.colorNote m ∉ o)) ?_ ?_
    ((guarded_of_forall hys).and (guarded_of_forall hsane)) hrun
  · refine ⟨hsafe, h, ?_⟩
    intro _ o ho
    cases ho
  · rintro ys outs₁ w₁ y w₂ o - ⟨hsafe₁, hw₁, hsilent₁⟩ ⟨hy, hsane⟩ hstep
    obtain ⟨rfl, rfl⟩ := step_of_plugin hstep
    refine ⟨safe_step hsafe₁ hsane, ?_, ?_⟩
    · have hone : [y].countP (Act.advances q) = if y.advances q then 1 else 0 :=
        List.countP_singleton
      rw [List.countP_append, hone, ← Nat.add_assoc]
      exact stops_step hw₁ hy
    · intro hproc o ho m
      have hproc₁ := proc2_of_step hw₁.issued hy hproc
      rcases List.mem_append.mp ho with ho | ho
      · exact hsilent₁ hproc₁ o ho m
      · rw [List.mem_singleton.mp ho]
        exact silent_step hsafe₁ hw₁ hproc₁ y m

section stops

variable {q n : ℕ} {w : World} (h : Stops q n w) (hsafe : Safe w) (hproc : w.proc2 = some q)

include h hsafe hproc

theorem Stops.no_mit (pid : ℕ) (ph : Phase) : w.procs.image pid ≠ some (.mit ph) := by
  intro hmit
  rcases eq_or_ne pid q with rfl | hne
  · rw [h.image] at hmit
    obtain ⟨-, s, hs⟩ := Stopping.stage_eq_some hmit
    cases hs
  · exact hsafe.others hproc hmit hne

/-- After its second step `stopMIT` answers for no player. -/
theorem Stops.nothing (hn : 2 ≤ n) {pid : ℕ} (hne : pid ≠ q) : w.procs.image pid = none := by
  rcases ha : w.procs.image pid with - | a
  · rfl
  · refine absurd (hsafe.others hproc ha hne) (hsafe.no_player hproc ?_ ha)
    intro b hb p hans
    rw [h.image] at hb
    match n with
    | 0 => omega
    | 1 => omega
    | 2 =>
      cases hb
      exact hans rfl
    | n + 3 => cases hb

theorem Stops.rests (hn : 3 ≤ n) :
    (w.step .notice).1.proc2 = none ∧ ∀ pid, (w.step .notice).1.procs.image pid = none := by
  have hq : w.procs.image q = none := by
    rw [h.image, Stopping.stage_eq_none hn]
  rw [World.notice_of_ended hproc hq]
  refine ⟨rfl, ?_⟩
  intro pid
  rcases eq_or_ne pid q with rfl | hne
  · exact hq
  · exact h.nothing hsafe hproc (by omega) hne

end stops

/-- The arguments of the text fields. -/
def keyboardArgv : List (List Char) :=
  ["MIT".toList, "Keyboard".toList, "Scales.mid".toList, "0".toList, "0".toList,
    "100".toList, "10".toList, "10".toList, "5".toList]

/-- A click on START. -/
def keyboardStart : Act := .start keyboardArgv

/-- `MIT` is started and forks; its child is not yet `aplaymidi`. -/
def beforeExec : List Act := keyboardStart :: List.replicate 5 (.advance 1 ⟨true, none⟩)

/-- The steps of `stopMIT`, with the `execlp` and a click between them. -/
def afterStop : List Act :=
  [.advance 3 ⟨true, none⟩, keyboardStart, .advance 2 ⟨true, none⟩, .advance 3 ⟨true, none⟩]

end MidiTraining
