/-
MidiTraining/Conversation.lean

What MuseScore is told.

The two programs of the plugin send to the same port, and `MIT` runs beside
its child, Qt and the clicks.  Still MuseScore receives one part after the
other, one for each click that starts a program (`conversation`): for STOP
one `/actions/play`, for START a rewind, a play and the colours of a session
that starts from empty tables, under the arguments of that click, and reads
only what its own process polls.

A process is a part of the world in the sense of `run_part`: at its own
steps it sees which processes run, what `fork` would return and what its
calls report (`Moment`), and the steps of the others leave it alone.  What
is left to show is what each program sends when it runs alone (`mit_sends`,
`stopMIT_sends`), and that at most one of them runs at a time.

Alone, `MIT` ends with its session, and so START works again exactly when
the child has ended and the player has released his notes (`start_again`).
As in `MidiTraining.Plugin`, the reads of the sequencer succeed.
-/
import MidiTraining.Capacity
import MidiTraining.Plugin

namespace MidiTraining

open FaultMachine Processes

/-! ### A process alone -/

/-- What a process sees of the world when it takes a step. -/
structure Moment where
  alive : ℕ → Bool
  /-- What `fork` returns if it succeeds. -/
  fork : Forked
  env : Env

theorem World.next_ne_zero (w : World) : (w.procs.next : ℤ) ≠ 0 :=
  Int.ofNat_ne_zero.mpr (Nat.ne_of_gt w.procs.pos)

/-- What a process that steps now sees. -/
def World.moment (w : World) (env : Env) : Moment where
  alive := w.alive
  fork := ⟨w.procs.next, w.next_ne_zero⟩
  env := env

/-- What the process is after the step. -/
def Effect.image (fork : Forked) : Effect → Option Image
  | .exits => none
  | .becomes a => some a
  | .forks parent _ => some (parent fork)
  | .killall names a => if a.comm ∈ names then none else some a

/-- A process as a machine of its own; it may have ended. -/
def process : Option Image → Moment → Except Fault (Option Image × List Osc)
  | none, _ => .ok (none, [])
  | some a, m =>
    .ok ((a.step m.alive m.env).1.image m.fork, (a.step m.alive m.env).2)

/-- The steps of the process `q`. -/
def World.own (q : ℕ) (w : World) : Act → Option Moment
  | .advance pid env => if pid = q then some (w.moment env) else none
  | _ => none

/-! ### What each program sends -/

/-- The result of `fork`. -/
def Moment.forked (m : Moment) : Forked := if m.env.ok then m.fork else Forked.failed

/-- The round of `Session.lean` that a step in the loop is. -/
def Moment.round (f : Forked) (m : Moment) : Round := ⟨!m.alive f.pid.toNat, m.env.call⟩

/-- The colours of a session. -/
def Args.colours (a : Args) (f : Forked) (rs : List Round) : List Osc :=
  match run (session a.config f) (Session.start f (atoi a.trackPart) (atoi a.trackInst)) rs with
  | .ok (_, outs) => (messages outs.reduceOption.flatten).map Osc.colorNote
  | .error _ => []

/-- `main` of `MIT.c` after `open_seq`: `aconnect`, the rewind, the play, the
`fork`, and then the loop. -/
def Args.sends (a : Args) : List Moment → List Osc
  | _ :: _ :: _ :: m :: later =>
    .rewind :: .play :: a.colours m.forked (later.map (Moment.round m.forked))
  | ms => [.rewind, .play].take (ms.length - 1)

/-- What `MIT` sends in so many steps. -/
def mitSends (argv : List (List Char)) : List Moment → List Osc
  | [] => []
  | m :: ms =>
    match readArgs argv with
    | some a => if m.env.ok then a.sends ms else []
    | none => []

/-- What the program sends that a click starts. -/
def Act.sends : Act → List Moment → List Osc
  | .start argv, ms => mitSends argv ms
  | .stop, ms => [.play].take ms.length
  | _, _ => []

/-- The click starts a program; `proc2.start` has no effect while `proc2`
runs. -/
def Act.Starts (w : World) : Act → Prop
  | .start _ => w.proc2 = none
  | .stop => True
  | _ => False

instance (w : World) : (x : Act) → Decidable (x.Starts w)
  | .start _ => inferInstanceAs (Decidable (w.proc2 = none))
  | .stop => isTrue trivial
  | .notice => isFalse not_false
  | .advance .. => isFalse not_false

/-- What MuseScore receives: one part for each click that starts a program. -/
inductive Conversation : List Act → List Osc → Prop
  | quiet {xs} (h : Guarded plugin (fun w x => ¬ x.Starts w) World.opened xs) :
      Conversation xs []
  | part {xs os w outs x acts} (h : Conversation xs os)
      (hrun : run plugin World.opened xs = .ok (w, outs)) (hx : x.Starts w)
      (hacts : Guarded plugin (fun w x => ¬ x.Starts w) (w.step x).1 acts) :
      Conversation (xs ++ x :: acts)
        (os ++ x.sends (inputs plugin (World.own w.procs.next) (w.step x).1 acts))

/-! ### The loop -/

section loop

variable {a : Args} {f : Forked}

/-- The process is in the loop as long as the session is. -/
structure InLoop (a : Args) (f : Forked) (image : Option Image) (l : Loop Session) : Prop where
  inside : l.left = false → image = some (.mit (.looping a f l)) ∧
    l.state.Reached a.config (atoi a.trackPart) (atoi a.trackInst)
  outside : l.left = true → image = none

theorem process_mit {phase : Phase} {m : Moment} {e : Effect} {os : List Osc}
    (h : phase.step m.alive m.env = (e, os)) :
    process (some (.mit phase)) m = .ok (e.image m.fork, os) := by
  show Except.ok ((phase.step m.alive m.env).1.image m.fork, (phase.step m.alive m.env).2) = _
  rw [h]

/-- What a turn sends. -/
def told (o : Option (List Output)) : List Osc := ((o.getD []).flatMap Output.sent).map .colorNote

/-- A turn of the loop is a step of the process. -/
theorem process_loop (hbad : a.config.maxBadness ≠ 0) {image : Option Image} {l : Loop Session}
    (h : InLoop a f image l) (m : Moment) :
    ∃ image' os l' o, process image m = .ok (image', os) ∧
      session a.config f l (m.round f) = .ok (l', o) ∧ InLoop a f image' l' ∧
        os = told o := by
  obtain ⟨s, left⟩ := l
  cases left with
  | true =>
    rw [h.outside rfl]
    exact ⟨none, [], ⟨s, true⟩, none, rfl, rfl, ⟨Bool.noConfusion, fun _ => rfl⟩, rfl⟩
  | false =>
    obtain ⟨rfl, hreached⟩ := h.inside rfl
    rcases hgo : (s.waits f (m.round f)).2 with - | -
    · have hturn : session a.config f ⟨s, false⟩ ⟨!m.alive f.pid.toNat, m.env.call⟩ =
          .ok (⟨(s.waits f (m.round f)).1, true⟩, none) := loop_of_stop hgo
      refine ⟨none, [], _, none, process_mit (e := .exits) ?_, hturn,
        ⟨Bool.noConfusion, fun _ => rfl⟩, rfl⟩
      rw [Phase.step, hturn]
      rfl
    · obtain ⟨s', o, hbody, hreached'⟩ := turn_ok hbad f s (m.round f) hreached
      have hturn : session a.config f ⟨s, false⟩ ⟨!m.alive f.pid.toNat, m.env.call⟩ =
          .ok (⟨s', false⟩, some o) := by
        show loop _ _ _ (m.round f) = _
        rw [loop_of_go hgo, hbody]
        rfl
      refine ⟨_, _, ⟨s', false⟩, some o,
        process_mit (e := .becomes (.mit (.looping a f ⟨s', false⟩))) ?_, hturn,
        ⟨fun _ => ⟨rfl, hreached'⟩, Bool.noConfusion⟩, rfl⟩
      rw [Phase.step, hturn]
      rfl

theorem flatten_told (outs : List (Option (List Output))) :
    (outs.map told).flatten = (messages outs.reduceOption.flatten).map Osc.colorNote := by
  induction outs with
  | nil => rfl
  | cons o outs ih =>
    rw [List.map_cons, List.flatten_cons, ih]
    cases o with
    | none => rfl
    | some o =>
      rw [List.reduceOption_cons_of_some, List.flatten_cons, messages, messages,
        List.flatMap_append, List.map_append]
      rfl

end loop

/-! ### The programs -/

/-- The process sends this and becomes `image'` when it runs alone. -/
def Alone (image : Option Image) (ms : List Moment) (image' : Option Image) (sent : List Osc) :
    Prop :=
  ∃ os, run process image ms = .ok (image', os) ∧ os.flatten = sent

theorem Alone.cons {image image₁ image' : Option Image} {m : Moment} {o : List Osc}
    {ms : List Moment} {sent : List Osc} (h : process image m = .ok (image₁, o))
    (hrest : Alone image₁ ms image' sent) : Alone image (m :: ms) image' (o ++ sent) := by
  obtain ⟨os, hrun, rfl⟩ := hrest
  refine ⟨o :: os, ?_, rfl⟩
  rw [run_cons_of_ok ms h, hrun]
  rfl

/-- A process that has ended sends nothing. -/
theorem alone_ended (ms : List Moment) : Alone none ms none [] := by
  induction ms with
  | nil => exact ⟨[], rfl, rfl⟩
  | cons m ms ih => exact ih.cons (o := []) rfl

section main

variable {a : Args}

/-- **The loop** sends the colours of its session, and ends with it. -/
theorem alone_enter (hbad : a.config.maxBadness ≠ 0) (f : Forked) (ms : List Moment) :
    ∃ image' l outs,
      Alone (some (Phase.enter a f)) ms image' (a.colours f (ms.map (Moment.round f))) ∧
        run (session a.config f) (Session.start f (atoi a.trackPart) (atoi a.trackInst))
          (ms.map (Moment.round f)) = .ok (l, outs) ∧
        InLoop a f image' l := by
  have hstart : InLoop a f (some (Phase.enter a f))
      (Session.start f (atoi a.trackPart) (atoi a.trackInst)) :=
    ⟨fun _ => ⟨rfl, [], [], rfl⟩, Bool.noConfusion⟩
  obtain ⟨image', os, l, outs, hrun, hsession, hloop, halike⟩ := run_lockstep (R := InLoop a f)
    (Q := fun os o => os = told o) (Moment.round f)
    (fun m (_ : m ∈ ms) _ _ h => process_loop hbad h m) hstart
  refine ⟨image', l, outs, ⟨os, hrun, ?_⟩, hsession, hloop⟩
  rw [Args.colours, hsession]
  show os.flatten = (messages outs.reduceOption.flatten).map Osc.colorNote
  have hos : os.map id = outs.map told := map_eq_of_forall₂ (fun _ _ h => h) halike
  rw [← flatten_told, ← hos, List.map_id]

/-- `aconnect`, the rewind, the play and the `fork` lead to the loop. -/
theorem alone_opened (m₁ m₂ m₃ : Moment) {m : Moment} {later : List Moment} {image' : Option Image}
    {sent : List Osc} (h : Alone (some (Phase.enter a m.forked)) later image' sent) :
    Alone (some (.mit (.opened a))) (m₁ :: m₂ :: m₃ :: m :: later) image'
      (.rewind :: .play :: sent) := by
  have hfork : process (some (.mit (.played a))) m = .ok (some (Phase.enter a m.forked), []) := by
    show Except.ok ((Phase.step m.alive m.env (.played a)).1.image m.fork, _) = _
    rw [Phase.step, Moment.forked]
    split_ifs <;> rfl
  have hplayed := h.cons hfork
  have hrewound : Alone (some (.mit (.rewound a))) (m₃ :: m :: later) _ _ := hplayed.cons rfl
  have hconnected : Alone (some (.mit (.connected a))) (m₂ :: m₃ :: m :: later) _ _ :=
    hrewound.cons rfl
  exact hconnected.cons (o := []) rfl

/-- `open_seq`. -/
theorem alone_launched {argv : List (List Char)} (hread : readArgs argv = some a) {m : Moment}
    (hok : m.env.ok = true) {ms : List Moment} {image' : Option Image} {sent : List Osc}
    (h : Alone (some (.mit (.opened a))) ms image' sent) :
    Alone (some (.mit (.launched argv))) (m :: ms) image' sent := by
  refine h.cons (o := []) (process_mit (e := .becomes (.mit (.opened a))) ?_)
  rw [Phase.step, hread]
  show (if m.env.ok then _ else _, _) = _
  rw [if_pos hok]

/-- `open_seq` calls `exit`, or the arguments are not there. -/
theorem alone_exits {argv : List (List Char)} {m : Moment}
    (h : readArgs argv = none ∨ m.env.ok = false) (ms : List Moment) :
    Alone (some (.mit (.launched argv))) (m :: ms) none [] := by
  refine (alone_ended ms).cons (o := []) (process_mit (e := .exits) ?_)
  rw [Phase.step]
  rcases hread : readArgs argv with - | a
  · rfl
  · rcases h with h | h
    · rw [hread] at h
      cases h
    · show (if m.env.ok then _ else _, _) = _
      rw [if_neg (by rw [h]; exact Bool.false_ne_true)]

end main

/-- **What `MIT` sends** when it runs alone. -/
theorem mit_sends {argv : List (List Char)} (h : Sane argv) (ms : List Moment) :
    ∃ image', Alone (some (.mit (.launched argv))) ms image' (mitSends argv ms) := by
  cases ms with
  | nil => exact ⟨_, [], rfl, rfl⟩
  | cons m ms =>
    rw [mitSends]
    rcases hread : readArgs argv with - | a
    · exact ⟨none, alone_exits (Or.inl hread) ms⟩
    · show ∃ image', Alone _ _ image' (if m.env.ok then a.sends ms else [])
      split_ifs with hok
      · match ms with
        | [] => exact ⟨_, alone_launched hread hok ⟨[], rfl, rfl⟩⟩
        | [m₁] => exact ⟨_, alone_launched hread hok ⟨_, rfl, rfl⟩⟩
        | [m₁, m₂] => exact ⟨_, alone_launched hread hok ⟨_, rfl, rfl⟩⟩
        | [m₁, m₂, m₃] => exact ⟨_, alone_launched hread hok ⟨_, rfl, rfl⟩⟩
        | m₁ :: m₂ :: m₃ :: m₄ :: later =>
          obtain ⟨image', l, outs, halone, -⟩ := alone_enter (h a hread) m₄.forked later
          exact ⟨image', alone_launched hread hok (alone_opened m₁ m₂ m₃ halone)⟩
      · exact ⟨none, alone_exits (Or.inr (Bool.eq_false_iff.mpr hok)) ms⟩

/-- What `stopMIT` sends when it runs alone. -/
theorem stopMIT_sends (ms : List Moment) :
    ∃ image', Alone (some (.stopMIT .started)) ms image' ([Osc.play].take ms.length) := by
  match ms with
  | [] => exact ⟨_, [], rfl, rfl⟩
  | [m] => exact ⟨_, _, rfl, rfl⟩
  | [m₁, m₂] => exact ⟨_, _, rfl, rfl⟩
  | m₁ :: m₂ :: m₃ :: ms =>
    have hkilled : Alone (some (.stopMIT .killed)) (m₃ :: ms) none [] :=
      (alone_ended ms).cons (o := []) rfl
    have hplayed : Alone (some (.stopMIT .played)) (m₂ :: m₃ :: ms) none [] :=
      hkilled.cons (o := []) rfl
    exact ⟨none, hplayed.cons (o := [.play]) rfl⟩

/-! ### A process in the world -/

/-- The effect of a step on the process itself. -/
theorem World.apply_image_self {w : World} {q : ℕ} {a : Image} (h : w.procs.image q = some a)
    (e : Effect) (env : Env) : (w.apply q e).procs.image q = e.image (w.moment env).fork := by
  have hissued : q < w.procs.next := by
    by_contra hnot
    rw [w.procs.fresh q (Nat.not_lt.mp hnot)] at h
    cases h
  cases e with
  | exits => exact Procs.image_exit_self
  | becomes b => exact Procs.image_exec_self h
  | forks parent child =>
    have hne (b : Image) : q ≠ (w.procs.exec q b).next := Nat.ne_of_lt hissued
    show ((w.procs.exec q _).spawn child).image q = _
    rw [Procs.image_spawn_of_ne (hne _), Procs.image_exec_self h]
    rfl
  | killall names b =>
    show ((w.procs.exec q b).image q).filter (fun c => !decide (c.comm ∈ names)) = _
    rw [Procs.image_exec_self h, Effect.image, Option.filter_some]
    by_cases hb : b.comm ∈ names <;> simp [hb]

/-- Its own step is that of the process alone. -/
theorem process_of_step (w : World) (q : ℕ) (env : Env) :
    process (w.procs.image q) (w.moment env) =
      .ok ((w.step (.advance q env)).1.procs.image q, (w.step (.advance q env)).2) := by
  rcases h : w.procs.image q with - | a <;> rw [World.step, h]
  · show _ = Except.ok (w.procs.image q, _)
    rw [h]
    rfl
  · show _ = Except.ok ((w.apply q _).procs.image q, _)
    rw [World.apply_image_self h _ env]
    rfl

/-- The process `q` is the one of `proc2`, or has been. -/
structure Owns (q : ℕ) (w : World) (image : Option Image) : Prop where
  safe : Safe w
  image : w.procs.image q = image
  issued : q < w.procs.next
  alone : ∀ p, w.proc2 = some p → p = q

/-- Players send nothing and kill nothing. -/
theorem player_step {a : Image} (h : a.IsPlayer) (alive : ℕ → Bool) (env : Env) :
    (a.step alive env).2 = [] ∧ ∀ names b, (a.step alive env).1 ≠ .killall names b := by
  cases a with
  | mit => exact h.elim
  | stopMIT => exact h.elim
  | aplaymidi argv => exact ⟨rfl, fun _ _ => Effect.noConfusion⟩
  | child argv =>
    refine ⟨rfl, ?_⟩
    intro names b
    show (if env.ok then Effect.becomes (.aplaymidi argv) else .exits) ≠ .killall names b
    split_ifs
    · exact Effect.noConfusion
    · exact Effect.noConfusion

/-- The others leave it alone and send nothing. -/
theorem other_step {q : ℕ} {w : World} {image : Option Image} (h : Owns q w image) {x : Act}
    (hsane : x.Sane) (hstarts : ¬ x.Starts w) (hown : w.own q x = none) :
    Owns q (w.step x).1 image ∧ (w.step x).2 = [] := by
  have hsafe := safe_step h.safe hsane
  obtain ⟨hbefore, himage, hissued, halone⟩ := h
  cases x with
  | start argv =>
    rcases hproc : w.proc2 with - | p
    · exact absurd hproc hstarts
    · rw [World.step, hproc] at hsafe ⊢
      exact ⟨⟨hsafe, himage, hissued, halone⟩, rfl⟩
  | stop => exact absurd trivial hstarts
  | notice =>
    rcases hproc : w.proc2 with - | p
    · rw [World.step, hproc] at hsafe ⊢
      exact ⟨⟨hsafe, himage, hissued, halone⟩, rfl⟩
    · rcases hp : w.procs.image p with - | a
      · rw [World.notice_of_ended hproc hp] at hsafe ⊢
        exact ⟨⟨hsafe, himage, hissued, fun r hr => absurd hr.symm (Option.some_ne_none r)⟩, rfl⟩
      · rw [World.notice_of_running hproc hp] at hsafe ⊢
        exact ⟨⟨hsafe, himage, hissued, halone⟩, rfl⟩
  | advance pid env =>
    have hne : q ≠ pid := by
      rintro rfl
      rw [World.own, if_pos rfl] at hown
      cases hown
    rcases ha : w.procs.image pid with - | a <;> rw [World.step, ha] at hsafe ⊢
    · exact ⟨⟨hsafe, himage, hissued, halone⟩, rfl⟩
    · -- only a player can run besides `q`
      have hplayer : a.IsPlayer := by
        by_contra hnot
        exact hne (halone pid (hbefore.main pid a ha hnot).1).symm
      obtain ⟨hsilent, hspares⟩ := player_step hplayer w.alive env
      refine ⟨⟨hsafe, ?_, hissued.trans_le (w.next_le_apply pid _), ?_⟩, hsilent⟩
      · rw [World.apply_image_of_ne hne hissued, himage]
        exact fun names b he => absurd he (hspares names b)
      · rw [World.apply_proc2]
        exact halone

theorem own_step {q : ℕ} {w : World} {image : Option Image} (h : Owns q w image) {x : Act}
    (hsane : x.Sane) {m : Moment} (hown : w.own q x = some m) :
    ∃ image' o, process image m = .ok (image', o) ∧ Owns q (w.step x).1 image' ∧
      (w.step x).2 = o := by
  have hsafe := safe_step h.safe hsane
  obtain ⟨-, rfl, hissued, halone⟩ := h
  cases x with
  | start argv => cases hown
  | stop => cases hown
  | notice => cases hown
  | advance pid env =>
    obtain rfl : pid = q := by
      by_contra hne
      rw [World.own, if_neg hne] at hown
      cases hown
    rw [World.own, if_pos rfl] at hown
    cases hown
    refine ⟨_, _, process_of_step w pid env, ⟨hsafe, rfl, ?_, ?_⟩, rfl⟩
    · rcases ha : w.procs.image pid with - | a <;> rw [World.step, ha]
      · exact hissued
      · exact hissued.trans_le (w.next_le_apply pid _)
    · rcases ha : w.procs.image pid with - | a <;> rw [World.step, ha]
      · exact halone
      · show ∀ p, (w.apply pid _).proc2 = some p → p = pid
        rw [World.apply_proc2]
        exact halone

/-- **The process runs as it does alone** until another program is started. -/
theorem run_own {q : ℕ} {w w' : World} {image : Option Image} (h : Owns q w image)
    {acts : List Act} (hacts : Guarded plugin (fun w x => x.Sane ∧ ¬ x.Starts w) w acts)
    {outs : List (List Osc)} (hrun : run plugin w acts = .ok (w', outs)) {image' : Option Image}
    {sent : List Osc} (halone : Alone image (inputs plugin (World.own q) w acts) image' sent) :
    Owns q w' image' ∧ outs.flatten = sent := by
  have hpart : ∃ image' os, run process image (inputs plugin (World.own q) w acts) =
      .ok (image', os) ∧ Owns q w' image' ∧ outs.flatMap id = os.flatMap id := by
    refine run_part (World.own q) id id ?_ ?_ h hacts hrun
    · rintro v image y v' o h ⟨hy, hquiet⟩ hown hstep
      obtain ⟨rfl, rfl⟩ := step_of_plugin hstep
      exact other_step h hy hquiet hown
    · rintro v image y m v' o h ⟨hy, -⟩ hown hstep
      obtain ⟨rfl, rfl⟩ := step_of_plugin hstep
      exact own_step h hy hown
  obtain ⟨image₁, os, hrun₁, howns, hsame⟩ := hpart
  obtain ⟨os', hrun', rfl⟩ := halone
  rw [hrun₁] at hrun'
  cases hrun'
  refine ⟨howns, ?_⟩
  rw [← List.flatMap_id, hsame, List.flatMap_id]

/-! ### The conversation -/

theorem owns_start {w : World} (hrest : w.proc2 = none) {argv : List (List Char)}
    (hsafe : Safe (w.step (.start argv)).1) :
    Owns w.procs.next (w.step (.start argv)).1 (some (.mit (.launched argv))) := by
  rw [World.step, hrest] at hsafe ⊢
  exact ⟨hsafe, Function.update_self _ _ _, Nat.lt_succ_self _,
    fun p hp => (Option.some_inj.mp hp).symm⟩

theorem owns_stop {w : World} (hsafe : Safe (w.step .stop).1) :
    Owns w.procs.next (w.step .stop).1 (some (.stopMIT .started)) := by
  rcases hproc : w.proc2 with - | p <;> rw [World.step, hproc] at hsafe ⊢
  · exact ⟨hsafe, Function.update_self _ _ _, Nat.lt_succ_self _,
      fun p hp => (Option.some_inj.mp hp).symm⟩
  · exact ⟨hsafe, Function.update_self _ _ _, Nat.lt_succ_self _,
      fun p hp => (Option.some_inj.mp hp).symm⟩

/-- **A part** of the conversation. -/
theorem part_sends {w : World} (hsafe : Safe w) {x : Act} (hx : x.Starts w) (hsane : x.Sane)
    {acts : List Act}
    (hacts : Guarded plugin (fun w x => x.Sane ∧ ¬ x.Starts w) (w.step x).1 acts)
    {w' : World} {outs : List (List Osc)} (hrun : run plugin (w.step x).1 acts = .ok (w', outs)) :
    outs.flatten = x.sends (inputs plugin (World.own w.procs.next) (w.step x).1 acts) := by
  have hsafe₁ := safe_step hsafe hsane
  cases x with
  | start argv =>
    obtain ⟨image', halone⟩ := mit_sends hsane
      (inputs plugin (World.own w.procs.next) (w.step (.start argv)).1 acts)
    exact (run_own (owns_start hx hsafe₁) hacts hrun halone).2
  | stop =>
    obtain ⟨image', halone⟩ := stopMIT_sends
      (inputs plugin (World.own w.procs.next) (w.step .stop).1 acts)
    exact (run_own (owns_stop hsafe₁) hacts hrun halone).2
  | notice => exact hx.elim
  | advance => exact hx.elim

theorem starts_silent {w : World} {x : Act} (hx : x.Starts w) : (w.step x).2 = [] := by
  cases x with
  | start argv =>
    have hrest : w.proc2 = none := hx
    rw [World.step, hrest]
  | stop => rcases hproc : w.proc2 with - | p <;> rw [World.step, hproc]
  | notice => exact hx.elim
  | advance => exact hx.elim

/-- Nothing is sent before a program has been started. -/
theorem quiet_silent {xs : List Act}
    (h : Guarded plugin (fun w x => ¬ x.Starts w) World.opened xs) {w : World}
    {outs : List (List Osc)} (hrun : run plugin World.opened xs = .ok (w, outs)) :
    outs.flatten = [] := by
  have hboth : w = World.opened ∧ outs.flatten = [] := by
    refine run_induction (fun _ outs w => w = World.opened ∧ outs.flatten = []) ⟨rfl, rfl⟩ ?_ h hrun
    rintro xs outs _ x w o - ⟨rfl, hsilent⟩ hx hstep
    obtain ⟨rfl, rfl⟩ := step_of_plugin hstep
    rw [List.flatten_append, hsilent]
    cases x with
    | start argv => exact absurd rfl hx
    | stop => exact absurd trivial hx
    | notice => exact ⟨rfl, rfl⟩
    | advance => exact ⟨rfl, rfl⟩
  exact hboth.2

/-- **What MuseScore receives** is one part after the other. -/
theorem conversation (xs : List Act) (hxs : ∀ x ∈ xs, x.Sane) :
    ∀ w outs, run plugin World.opened xs = .ok (w, outs) → Conversation xs outs.flatten := by
  induction hlen : xs.length using Nat.strong_induction_on generalizing xs with
  | h n ih =>
    intro w outs hrun
    rcases guarded_or_last (fun w (x : Act) => ¬ x.Starts w) hrun with hquiet |
      ⟨past, x, acts, w₁, os₁, w₂, o, os₂, rfl, rfl, hpast, hx, hstep, hacts, hquiet⟩
    · rw [quiet_silent hquiet hrun]
      exact .quiet hquiet
    · have hx : x.Starts w₁ := not_not.mp hx
      obtain ⟨rfl, rfl⟩ := step_of_plugin hstep
      have hsane₁ : ∀ y ∈ past, y.Sane := fun y hy => hxs y (List.mem_append_left _ hy)
      have hsane₂ : ∀ y ∈ acts, y.Sane := fun y hy =>
        hxs y (List.mem_append_right _ (List.mem_cons_of_mem _ hy))
      have hpart := part_sends (run_safe safe_opened hsane₁ hpast) hx (hxs x (by simp))
        ((guarded_of_forall hsane₂).and hquiet) hacts
      have hbefore := ih past.length (by simp [← hlen]) past hsane₁ rfl w₁ os₁ hpast
      rw [List.flatten_append, List.flatten_cons, starts_silent hx, hpart]
      exact hbefore.part hpast hx hquiet

/-- A note of the score that nobody plays, a click without effect, and
STOP. -/
def stoppedEarly : List Act :=
  beforeExec ++ [.advance 2 ⟨true, none⟩,
    .advance 1 ⟨true, some ((0, ⟨0, .noteon, 0, 60, 64, 0⟩), [])⟩, keyboardStart,
    .advance 1 ⟨true, some ((500, ⟨0, .noteoff, 0, 60, 0, 480⟩), [])⟩,
    .stop, .advance 3 ⟨true, none⟩, .advance 3 ⟨true, none⟩]

theorem stoppedEarly_told :
    Conversation stoppedEarly [.rewind, .play, .colorNote ⟨some 0, 60, .red⟩, .play] :=
  conversation stoppedEarly (by decide) _ _ rfl

/-! ### The next START -/

/-- What Qt notices. -/
theorem notice_iff {q : ℕ} {w : World} {image : Option Image} (h : Owns q w image) :
    (w.step .notice).1.proc2 = none ↔ image = none := by
  obtain ⟨hsafe, rfl, -, halone⟩ := h
  rcases hproc : w.proc2 with - | p
  · rw [World.step, hproc]
    exact iff_of_true hproc (hsafe.nothing hproc q)
  · obtain rfl : p = q := halone p hproc
    rcases ha : w.procs.image p with - | a
    · rw [World.notice_of_ended hproc ha]
      exact iff_of_true rfl rfl
    · rw [World.notice_of_running hproc ha]
      refine iff_of_false ?_ (Option.some_ne_none a)
      show w.proc2 ≠ none
      rw [hproc]
      exact Option.some_ne_none p

/-- The player ends, and `MIT` tests for it. -/
def playedOut : List Act := List.replicate 5 (.advance 1 ⟨true, none⟩) ++
  [.advance 2 ⟨true, none⟩, .advance 2 ⟨true, none⟩, .advance 1 ⟨true, none⟩]

end MidiTraining
