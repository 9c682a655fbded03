/-
MidiTraining/Heard.lean

What is heard decides everything.

Between the events and the tables stand a filter and a decoder: events of
other ports, channels and types are dropped, a `NOTEON` of velocity `0` is a
note-off, and the events of one call of `midi_event` are handled in one
loop.  None of this matters beyond the list of actions that remains.  Two
runs with the same remaining actions, on whatever channels, in whatever
calls, in whatever encoding and among whatever other events, end with the
same tables and show the same (`heard_decides`).

What a note-off shows is its result, the tick it wrote, and its messages.
The one thing that depends on the calls is the tick of a message whose
note-off wrote none, which is left over from the rounds before; `shown` does
not show it.  If every note-off ends a sounding note there is no such
message, and the messages are the same (`heard_messages`).

The proof runs both lists of passes against one machine that reads actions
(`actionStep`), along `run_stutter`.
-/
import MidiTraining.Capacity

namespace MidiTraining

open SwapRemove FaultMachine

/-! ### What a run hears and shows -/

/-- An action that reaches a table. -/
def Action.heard : Action → Option Action
  | .ignored => none
  | a => some a

/-- The actions of a run that reach a table. -/
def heard (as : List Action) : List Action := as.filterMap Action.heard

/-- What a note-off shows of itself: the tick of its messages is the one it
wrote. -/
structure Shown where
  badness : ℤ
  wrote : Option ℤ
  sent : List Message
  deriving DecidableEq, Repr

/-- What a pass shows of its note-off, if it is one. -/
def Output.shown (o : Output) : List Shown :=
  match o.badness with
  | none => []
  | some b => [⟨b, o.wrote, o.sent.map fun m => { m with tick := o.wrote }⟩]

@[simp] theorem shown_silent : Output.silent.shown = [] := rfl

/-! ### The machine that reads actions -/

/-- The effect of an action on the tables.  Nothing is left over from an
action before. -/
def actionStep (cfg : Config) (s : Tables) : Action → Except Fault (Tables × Output)
  | .noteOn side note t k =>
      let r := noteOn (s.get side) (s.get side.other) note t k
      .ok (.put side r.1 r.2 none, .silent)
  | .noteOff side note t =>
      let r := noteOff cfg (s.get side) (s.get side.other) note t side.isInst
      match sendMessage cfg side r.badness r.tick note with
      | .ok sent => .ok (.put side r.track r.ref none, ⟨some r.badness, r.tick, sent⟩)
      | .error e => .error e
  | .ignored => .ok (s, .silent)

/-- The tables hold the same. -/
def SameTables (s t : Tables) : Prop := ∀ σ, s.get σ = t.get σ

theorem sameTables_put (side : Side) (T R : Table) (tick tick' : Option ℤ) :
    SameTables (.put side T R tick) (.put side T R tick') := by
  intro σ
  cases side <;> cases σ <;> rfl

/-- The tick of a message decides neither whether it is sent nor its colour. -/
theorem sendMessage_tick (cfg : Config) (side : Side) (badness : ℤ) (tick tick' : Option ℤ)
    (note : ℤ) :
    (∃ e, sendMessage cfg side badness tick note = .error e ∧
      sendMessage cfg side badness tick' note = .error e) ∨
    ∃ sent sent', sendMessage cfg side badness tick note = .ok sent ∧
      sendMessage cfg side badness tick' note = .ok sent' ∧
      ∀ k, (sent.map fun m => { m with tick := k }) = sent'.map fun m => { m with tick := k } := by
  rw [sendMessage_eq, sendMessage_eq]
  by_cases hsends : side.Sends badness
  · rw [if_pos hsends, if_pos hsends]
    rcases getcolor cfg (side.clamp cfg badness) with e | color
    · exact Or.inl ⟨e, rfl, rfl⟩
    · exact Or.inr ⟨_, _, rfl, rfl, fun k => rfl⟩
  · rw [if_neg hsends, if_neg hsends]
    exact Or.inr ⟨_, _, rfl, rfl, fun k => rfl⟩

/-- A pass that is not heard changes no table. -/
theorem pass_of_not_heard (cfg : Config) (c₁ c₂ : ℤ) {s t : Tables} (h : SameTables s t) {p : Pass}
    (hp : (p.action c₁ c₂).heard = none) :
    ∃ s' o, tablesPass cfg c₁ c₂ s p = .ok (s', o) ∧ SameTables s' t ∧ o.shown = [] := by
  have ha : p.action c₁ c₂ = .ignored := by
    rcases ha : p.action c₁ c₂ with ⟨side, note, u, k⟩ | ⟨side, note, u⟩ | -
    · rw [ha] at hp
      cases hp
    · rw [ha] at hp
      cases hp
    · rfl
  refine ⟨{ s with tick := if p.first then none else s.tick }, .silent, ?_, ?_, rfl⟩
  · rw [tablesPass, ha]
  · intro σ
    rw [Tables.get_with_tick]
    exact h σ

/-- A pass that is heard is a step of the machine that reads actions. -/
theorem pass_of_heard (cfg : Config) (c₁ c₂ : ℤ) {s t : Tables} (h : SameTables s t) {p : Pass}
    {a : Action} (hp : (p.action c₁ c₂).heard = some a) :
    (∃ e, tablesPass cfg c₁ c₂ s p = .error e ∧ actionStep cfg t a = .error e) ∨
      ∃ s' o t' o', tablesPass cfg c₁ c₂ s p = .ok (s', o) ∧ actionStep cfg t a = .ok (t', o') ∧
        SameTables s' t' ∧ o.shown = o'.shown := by
  rcases ha : p.action c₁ c₂ with ⟨side, note, u, k⟩ | ⟨side, note, u⟩ | -
  · rw [ha] at hp
    cases hp
    right
    simp only [tablesPass, actionStep, ha, h side, h side.other]
    exact ⟨_, _, _, _, rfl, rfl, sameTables_put side _ _ _ _, rfl⟩
  · rw [ha] at hp
    cases hp
    simp only [tablesPass, actionStep, ha, h side, h side.other]
    obtain ⟨r, hr⟩ :
      ∃ r, noteOff cfg (t.get side) (t.get side.other) note u side.isInst = r := ⟨_, rfl⟩
    rw [hr]
    rcases sendMessage_tick cfg side r.badness
      (r.tick.or (if p.first then none else s.tick)) r.tick note with
      ⟨e, he, he'⟩ | ⟨sent, sent', hs, hs', hmap⟩
    · left
      rw [he, he']
      exact ⟨e, rfl, rfl⟩
    · right
      rw [hs, hs']
      refine ⟨_, _, _, _, rfl, rfl, sameTables_put side _ _ _ _, ?_⟩
      show [_] = [_]
      rw [hmap]
  · rw [ha] at hp
    cases hp

/-! ### What is heard decides -/

/-- The tables of two states hold the same. -/
def State.SameTables (s s' : State) : Prop := MidiTraining.SameTables s.tables s'.tables

/-- A run of the program shows what its heard actions show. -/
theorem run_heard (cfg : Config) (c₁ c₂ : ℤ) (ps : List Pass) :
    Agree (fun s t => SameTables s.tables t)
      (observed Output.shown (run (midiEventPass cfg) (initial c₁ c₂) ps))
      (observed Output.shown (run (actionStep cfg) noTables (heard (actions c₁ c₂ ps)))) := by
  have htables := (run_represents cfg (initial_represents c₁ c₂) ps).observed Output.shown
  have hactions : Agree SameTables
      (observed Output.shown (run (tablesPass cfg c₁ c₂) noTables ps))
      (observed Output.shown (run (actionStep cfg) noTables
        (ps.filterMap fun p => (p.action c₁ c₂).heard))) := by
    refine run_stutter (R := SameTables) (fun p => (p.action c₁ c₂).heard) _ _ ?_ ?_
      (fun _ => rfl) ps
    · intro s t p hsame hp
      exact pass_of_not_heard cfg c₁ c₂ hsame hp
    · intro s t p a hsame hp
      exact pass_of_heard cfg c₁ c₂ hsame hp
  have hheard : ps.filterMap (fun p => (p.action c₁ c₂).heard) = heard (actions c₁ c₂ ps) := by
    rw [heard, actions, List.filterMap_map]
    rfl
  rw [hheard] at hactions
  refine htables.compose ?_ hactions
  rintro s t u hrep hsame σ
  rw [hrep.tables]
  exact hsame σ

/-- **What is heard decides everything.**  Two runs whose heard actions are
the same fault alike, or end with the same tables and show the same. -/
theorem heard_decides (cfg : Config) (c₁ c₂ d₁ d₂ : ℤ) (ps qs : List Pass)
    (h : heard (actions c₁ c₂ ps) = heard (actions d₁ d₂ qs)) :
    Agree State.SameTables
      (observed Output.shown (run (midiEventPass cfg) (initial c₁ c₂) ps))
      (observed Output.shown (run (midiEventPass cfg) (initial d₁ d₂) qs)) := by
  have hps := run_heard cfg c₁ c₂ ps
  rw [h] at hps
  refine hps.compose ?_ (run_heard cfg d₁ d₂ qs).reverse
  intro s t s' hs hs' σ
  exact (hs σ).trans (hs' σ).symm

/-! ### The messages -/

section messages

variable {cfg : Config} {c₁ c₂ : ℤ} {ps : List Pass} {s s' : Tables} {p : Pass} {o : Output}

/-- A pass that returns no result sends nothing, and the messages of one that
wrote a tick carry it. -/
theorem sent_eq_shown (h : tablesPass cfg c₁ c₂ s p = .ok (s', o))
    (hwrote : ∀ x ∈ o.shown, x.wrote ≠ none) : o.sent = o.shown.flatMap Shown.sent := by
  rcases ha : p.action c₁ c₂ with ⟨side, note, t, k⟩ | ⟨side, note, t⟩ | -
  · obtain ⟨rfl, -⟩ := tablesPass_of_noteOn h ha
    rfl
  · obtain ⟨tick, sent, -, hsend, rfl⟩ := tablesPass_of_noteOff h ha
    obtain ⟨k, hk⟩ := Option.ne_none_iff_exists'.mp (hwrote _ (List.mem_singleton_self _))
    simp only at hk
    rw [hk] at hsend
    rcases sendMessage_cases hsend with ⟨-, color, -, rfl⟩ | ⟨-, rfl⟩
    · simp [Output.shown, hk]
    · simp [Output.shown]
  · obtain ⟨-, rfl⟩ := tablesPass_of_ignored h ha
    rfl

theorem messages_eq_shown {t : Tables} {outs : List Output}
    (h : run (tablesPass cfg c₁ c₂) noTables ps = .ok (t, outs))
    (hwrote : ∀ x ∈ outs.flatMap Output.shown, x.wrote ≠ none) :
    messages outs = (outs.flatMap Output.shown).flatMap Shown.sent := by
  refine run_induction (C := fun _ _ => True) (fun _ outs _ =>
    (∀ x ∈ outs.flatMap Output.shown, x.wrote ≠ none) →
      messages outs = (outs.flatMap Output.shown).flatMap Shown.sent) (fun _ => rfl) ?_
    (fun _ _ _ _ _ _ => trivial) h hwrote
  intro past outs s p s' o _ ih _ hstep hwrote
  rw [List.flatMap_append] at hwrote
  have hpast := ih fun x hx => hwrote x (List.mem_append_left _ hx)
  have hlast := sent_eq_shown hstep fun x hx => hwrote x (by simp [hx])
  rw [messages_snoc, hpast, hlast]
  simp

/-- A note-off that ends a sounding note writes a tick. -/
theorem wrote_of_found (h : tablesPass cfg c₁ c₂ s p = .ok (s', o))
    (hfound : Found s (p.action c₁ c₂)) : ∀ x ∈ o.shown, x.wrote ≠ none := by
  intro x hx
  rcases ha : p.action c₁ c₂ with ⟨side, note, t, k⟩ | ⟨side, note, t⟩ | -
  · obtain ⟨rfl, -⟩ := tablesPass_of_noteOn h ha
    cases hx
  · obtain ⟨tick, sent, -, -, rfl⟩ := tablesPass_of_noteOff h ha
    obtain rfl := List.mem_singleton.mp hx
    rw [ha] at hfound
    rcases hfind : firstAt (Entry.hasNote note) (s.get side) with - | ⟨n, e⟩
    · obtain ⟨e, he, hnote⟩ := hfound
      exact absurd hnote (Entry.hasNote_eq_false_iff.mp (firstAt_eq_none_iff.mp hfind e he))
    · rw [noteOff_tick cfg _ t _ hfind]
      exact Option.some_ne_none _
  · obtain ⟨-, rfl⟩ := tablesPass_of_ignored h ha
    cases hx

theorem run_wrote (hfit : NoOverflow (actions c₁ c₂ ps)) (hstray : NoStray (actions c₁ c₂ ps))
    {t : Tables} {outs : List Output}
    (h : run (tablesPass cfg c₁ c₂) noTables ps = .ok (t, outs)) :
    ∀ x ∈ outs.flatMap Output.shown, x.wrote ≠ none := by
  refine run_induction (fun _ outs _ => ∀ x ∈ outs.flatMap Output.shown, x.wrote ≠ none)
    (by simp) ?_ (guarded_found hfit hstray) h
  intro past outs s p s' o _ ih hfound hstep x hx
  rw [List.flatMap_append] at hx
  rcases List.mem_append.mp hx with hold | hlast
  · exact ih x hold
  · exact wrote_of_found hstep hfound x (by simpa using hlast)

end messages

/-- **The messages are decided by what is heard**, if every note-off of one of
the two runs ends a sounding note. -/
theorem heard_messages (cfg : Config) (c₁ c₂ d₁ d₂ : ℤ) (ps qs : List Pass)
    (h : heard (actions c₁ c₂ ps) = heard (actions d₁ d₂ qs))
    (hfit : NoOverflow (actions c₁ c₂ ps)) (hstray : NoStray (actions c₁ c₂ ps)) :
    ∀ s outs s' outs', run (midiEventPass cfg) (initial c₁ c₂) ps = .ok (s, outs) →
      run (midiEventPass cfg) (initial d₁ d₂) qs = .ok (s', outs') →
      messages outs = messages outs' := by
  intro s outs s' outs' hps hqs
  have hps' := run_heard cfg c₁ c₂ ps
  have hqs' := run_heard cfg d₁ d₂ qs
  rw [h] at hps'
  have hshown := hps'.compose (T := fun _ _ => True) (fun _ _ _ _ _ => trivial) hqs'.reverse
  rw [hps, hqs] at hshown
  have heq : outs.flatMap Output.shown = outs'.flatMap Output.shown := hshown.2
  have hwrote := run_wrote hfit hstray (run_tables hps).1
  rw [messages_eq_shown (run_tables hps).1 hwrote,
    messages_eq_shown (run_tables hqs).1 (heq ▸ hwrote), heq]

/-- The chord, on other channels, handled in one call, with note-offs written
as strikes of velocity `0` and an event of another port in between. -/
def chordInOneCall : List Pass :=
  chord.flatMap fun p =>
    [⟨false, p.time, { p.ev with channel := 3, type := .noteon, velocity :=
        if p.ev.type = .noteoff then 0 else 100 }⟩,
      ⟨false, p.time, ⟨2, .noteon, 3, 60, 64, 0⟩⟩, ⟨false, p.time, ⟨0, .noteon, 0, 60, 64, 0⟩⟩]

theorem chordInOneCall_same : Agree State.SameTables
    (observed Output.shown (run (midiEventPass ⟨100, 10, 10, 5⟩) (initial 0 0) chord))
    (observed Output.shown (run (midiEventPass ⟨100, 10, 10, 5⟩) (initial 3 3) chordInOneCall)) :=
  heard_decides _ 0 0 3 3 chord chordInOneCall (by decide)

theorem chordInOneCall_messages : ∃ s outs s' outs',
    run (midiEventPass ⟨100, 10, 10, 5⟩) (initial 0 0) chord = .ok (s, outs) ∧
      run (midiEventPass ⟨100, 10, 10, 5⟩) (initial 3 3) chordInOneCall = .ok (s', outs') ∧
      messages outs = messages outs' := by
  obtain ⟨s, outs, h⟩ : ∃ s outs, run (midiEventPass ⟨100, 10, 10, 5⟩) (initial 0 0) chord =
    .ok (s, outs) := run_ok (by decide) _
  obtain ⟨s', outs', h'⟩ : ∃ s' outs', run (midiEventPass ⟨100, 10, 10, 5⟩) (initial 3 3)
    chordInOneCall = .ok (s', outs') := run_ok (by decide) _
  exact ⟨s, outs, s', outs', h, h', heard_messages _ 0 0 3 3 chord chordInOneCall (by decide)
    (by decide) (by decide) s outs s' outs' h h'⟩

end MidiTraining
