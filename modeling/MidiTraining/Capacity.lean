/-
MidiTraining/Capacity.lean

Notes ignored at capacity.

`track_note_on` ignores a note that arrives when its table is full
("New notes are ignored"), and `withoutIgnored` is the run without those
notes: without the note-ons that find a full table and without the note-offs
that end such a note.  The tables never see the difference.  The messages
do: the note-off of an ignored note finds nothing, and after a note-off that
finds nothing the port of the instrument is silent and the port of the score
is not.  So the deletion leaves the messages unchanged exactly if every note
that the score ends is in its table (`ignored_notes_deleted`).

The relation between the two runs is that the tables agree, that the second
one sends a sublist of the messages, and that it sends all of them exactly
if no note-off of the score so far ended an ignored note.
-/
import MidiTraining.Sounding

namespace MidiTraining

open SwapRemove FaultMachine

/-! ### Deleting the ignored notes -/

/-- The action strikes a note that is ignored, or ends one. -/
def Unheard (past : List Action) : Action → Bool
  | .noteOn σ _ _ _ => decide (maxLength ≤ (held σ past).live.length)
  | .noteOff σ p _ => decide (p ∈ (held σ past).ignored ∧ p ∉ (held σ past).live)
  | .ignored => false

/-- The run without the ignored notes. -/
def withoutIgnored (c₁ c₂ : ℤ) (ps : List Pass) : List Pass :=
  without (fun past p => Unheard (actions c₁ c₂ past) (p.action c₁ c₂)) ps

/-- The messages of a run. -/
def messages (outs : List Output) : List Message := outs.flatMap Output.sent

theorem messages_snoc (outs : List Output) (o : Output) :
    messages (outs ++ [o]) = messages outs ++ o.sent := by
  simp [messages]

/-- A note that the score ends was not ignored. -/
def EndsHeard (past : List Action) : Action → Prop
  | .noteOff .score p t => Unheard past (.noteOff .score p t) = false
  | _ => True

instance (past : List Action) : (a : Action) → Decidable (EndsHeard past a)
  | .noteOff .score p t =>
      inferInstanceAs (Decidable (Unheard past (.noteOff .score p t) = false))
  | .noteOff .inst .. => isTrue trivial
  | .noteOn .. => isTrue trivial
  | .ignored => isTrue trivial

theorem endsHeard_of_heard {past : List Action} {a : Action} (h : Unheard past a = false) :
    EndsHeard past a := by
  rcases a with - | ⟨side, p, t⟩ | -
  · trivial
  · cases side with
    | score => exact h
    | inst => trivial
  · trivial

/-! ### One pass -/

section pass

variable {cfg : Config} {c₁ c₂ : ℤ} {s s' t : Tables} {p : Pass} {o : Output} {past : List Action}

/-- A deleted pass leaves the tables alone, and sends a message exactly if it
ends a note of the score. -/
theorem pass_unheard (h : tablesPass cfg c₁ c₂ s p = .ok (s', o))
    (hheld : ∀ σ, ((s.get σ).map Entry.note).Perm (held σ past).live)
    (hdel : Unheard past (p.action c₁ c₂) = true) :
    (∀ σ, s'.get σ = s.get σ) ∧ (o.sent = [] ↔ EndsHeard past (p.action c₁ c₂)) := by
  rcases ha : p.action c₁ c₂ with ⟨side, note, u, k⟩ | ⟨side, note, u⟩ | -
  · -- the table is full
    rw [ha] at hdel
    have hlen := (hheld side).length_eq
    rw [List.length_map] at hlen
    have hfull : ¬ (s.get side).length < maxLength := by
      have hge : maxLength ≤ (held side past).live.length := of_decide_eq_true hdel
      omega
    obtain ⟨rfl, tick, rfl⟩ := tablesPass_of_noteOn h ha
    rw [noteOn_of_full hfull]
    refine ⟨fun σ => ?_, iff_of_true rfl trivial⟩
    rcases Side.eq_or_eq_other side σ with rfl | rfl
    · exact Tables.get_put _ _ _ _
    · exact Tables.get_put_other _ _ _ _
  · -- nothing of its pitch is in the table
    rw [ha] at hdel
    have hnot : note ∉ (held side past).live := (of_decide_eq_true hdel).2
    have hnone : firstAt (Entry.hasNote note) (s.get side) = none := by
      refine firstAt_eq_none_iff.mpr fun e he => Entry.hasNote_eq_false_iff.mpr fun hnote => ?_
      exact hnot ((hheld side).mem_iff.mp (List.mem_map.mpr ⟨e, he, hnote⟩))
    have hoff : noteOff cfg (s.get side) (s.get side.other) note u side.isInst =
        ⟨-1, none, s.get side, s.get side.other⟩ := by
      simp [noteOff, hnone]
    obtain ⟨tick, sent, rfl, hsend, rfl⟩ := tablesPass_of_noteOff h ha
    rw [hoff] at hsend ⊢
    constructor
    · intro σ
      rcases Side.eq_or_eq_other side σ with rfl | rfl
      · exact Tables.get_put _ _ _ _
      · exact Tables.get_put_other _ _ _ _
    · cases side with
      | score =>
        rcases sendMessage_cases hsend with ⟨-, color, -, rfl⟩ | ⟨hsends, -⟩
        · refine iff_of_false (by simp) fun hheard => ?_
          rw [show Unheard past (.noteOff .score note u) = false from hheard] at hdel
          cases hdel
        · exact absurd Side.score_sends_neg_one hsends
      | inst =>
        rcases sendMessage_cases hsend with ⟨hsends, -⟩ | ⟨-, rfl⟩
        · exact absurd hsends Side.not_inst_sends_neg_one
        · exact iff_of_true rfl trivial
  · rw [ha] at hdel
    cases hdel

/-- The local `tick` matters only where a note-off finds nothing. -/
theorem pass_of_same_tables (hst : ∀ σ, t.get σ = s.get σ) (hfound : Found s (p.action c₁ c₂))
    (h : tablesPass cfg c₁ c₂ s p = .ok (s', o)) :
    ∃ t', tablesPass cfg c₁ c₂ t p = .ok (t', o) ∧ ∀ σ, t'.get σ = s'.get σ := by
  rcases ha : p.action c₁ c₂ with ⟨side, note, u, k⟩ | ⟨side, note, u⟩ | -
  · obtain ⟨rfl, tick, rfl⟩ := tablesPass_of_noteOn h ha
    refine ⟨.put side (noteOn (s.get side) (s.get side.other) note u k).1
      (noteOn (s.get side) (s.get side.other) note u k).2 (if p.first then none else t.tick),
      by simp only [tablesPass, ha, hst], fun σ => ?_⟩
    rcases Side.eq_or_eq_other side σ with rfl | rfl
    · rw [Tables.get_put, Tables.get_put]
    · rw [Tables.get_put_other, Tables.get_put_other]
  · rw [ha] at hfound
    obtain ⟨e₀, hmem, hnote⟩ := hfound
    obtain ⟨⟨n, e⟩, hfind⟩ : ∃ x, firstAt (Entry.hasNote note) (s.get side) = some x := by
      refine Option.ne_none_iff_exists'.mp fun hnone => ?_
      exact absurd hnote (Entry.hasNote_eq_false_iff.mp (firstAt_eq_none_iff.mp hnone e₀ hmem))
    -- the note-off writes the tick, whatever it was before
    have htick := noteOff_tick cfg (s.get side.other) u side.isInst hfind
    have hsame : tablesPass cfg c₁ c₂ t p = tablesPass cfg c₁ c₂ s p := by
      simp only [tablesPass, ha, hst, htick, Option.some_or]
    exact ⟨s', hsame.trans h, fun _ => rfl⟩
  · obtain ⟨hsame, rfl⟩ := tablesPass_of_ignored h ha
    refine ⟨{ t with tick := if p.first then none else t.tick },
      by simp only [tablesPass, ha], fun σ => ?_⟩
    rw [Tables.get_with_tick, hst, hsame]

/-- A pass that stays, and ends a note that sounds, finds it. -/
theorem found_of_heard (hheld : ∀ σ, ((s.get σ).map Entry.note).Perm (held σ past).live)
    {a : Action} (hend : EndsSounding past a) (hkeep : Unheard past a = false) : Found s a := by
  rcases a with - | ⟨side, note, u⟩ | -
  · trivial
  · have hmem := (sounding_perm side past).mem_iff.mp hend
    have hlive : note ∈ (held side past).live := by
      by_contra hnot
      rcases List.mem_append.mp hmem with hlive | hignored
      · exact hnot hlive
      · rw [Unheard, decide_eq_true ⟨hignored, hnot⟩] at hkeep
        cases hkeep
    exact List.mem_map.mp ((hheld side).mem_iff.mpr hlive)
  · trivial

end pass

/-! ### The program -/

/-- **Notes ignored at capacity.**  In every run, each table holds the notes
held and not those ignored.  If every note-off ends a note that sounds, the
run without the ignored notes ends with the same tables, and it sends the
same messages exactly if no note-off of the score ended an ignored note. -/
theorem ignored_notes_deleted (cfg : Config) (c₁ c₂ : ℤ) (ps : List Pass)
    (hend : NoStray (actions c₁ c₂ ps)) {s : State} {outs : List Output}
    (hrun : run (midiEventPass cfg) (initial c₁ c₂) ps = .ok (s, outs)) :
    (∀ past s₁ outs₁, past <+: ps →
      run (midiEventPass cfg) (initial c₁ c₂) past = .ok (s₁, outs₁) →
      ∀ σ, ((s₁.tables.get σ).map Entry.note).Perm (held σ (actions c₁ c₂ past)).live) ∧
    ∃ s' outs',
      run (midiEventPass cfg) (initial c₁ c₂) (withoutIgnored c₁ c₂ ps) = .ok (s', outs') ∧
      (∀ σ, s'.tables.get σ = s.tables.get σ) ∧
      (messages outs' = messages outs ↔ Always EndsHeard (actions c₁ c₂ ps)) := by
  refine ⟨fun past s₁ outs₁ _ h σ => run_held (run_tables h).1 σ, ?_⟩
  have htwo := run_without
    (fun past p => Unheard (actions c₁ c₂ past) (p.action c₁ c₂)) (D := fun _ _ => True)
    (fun past os s os' t => (∀ σ, t.get σ = s.get σ) ∧ (messages os').Sublist (messages os) ∧
      (messages os' = messages os ↔ Always EndsHeard (actions c₁ c₂ past)))
    ⟨fun _ => rfl, List.Sublist.refl _, iff_of_true rfl (always_nil _)⟩ ?_ ?_
    (fun _ _ _ _ _ _ => trivial) (run_tables hrun).1
  · obtain ⟨t', outs', hrun', htables, -, hsame⟩ := htwo
    obtain ⟨s', hs', rfl⟩ := run_of_tables hrun'
    exact ⟨s', outs', hs', htables, hsame⟩
  · -- a deleted pass adds at most a message to the first run
    rintro past os s₁ os' t₁ p s₂ o - hpast ⟨htables, hsub, hsame⟩ hdel hstep
    obtain ⟨hsame₂, hsilent⟩ := pass_unheard hstep (run_held hpast) hdel
    rw [messages_snoc, actions_snoc, always_snoc, ← hsame, ← hsilent]
    refine ⟨fun σ => (htables σ).trans (hsame₂ σ).symm,
      hsub.trans (List.sublist_append_left _ _), ?_⟩
    constructor
    · intro heq
      have hlen := hsub.length_le
      rw [heq, List.length_append] at hlen
      have hnil : o.sent = [] := List.length_eq_zero_iff.mp (by omega)
      rw [hnil, List.append_nil] at heq
      exact ⟨heq, hnil⟩
    · rintro ⟨heq, hnil⟩
      rw [heq, hnil, List.append_nil]
  · -- a pass that stays shows the same
    rintro past os s₁ os' t₁ p s₂ o hp hpast ⟨htables, hsub, hsame⟩ hdel - hstep
    have hends : EndsSounding (actions c₁ c₂ past) (p.action c₁ c₂) := by
      refine hend _ _ ?_
      rw [← actions_snoc]
      exact hp.map _
    obtain ⟨t₂, ht₂, htables₂⟩ :=
      pass_of_same_tables htables (found_of_heard (run_held hpast) hends hdel) hstep
    refine ⟨t₂, o, ht₂, htables₂, ?_⟩
    rw [messages_snoc, messages_snoc, actions_snoc, always_snoc, List.append_left_inj, ← hsame]
    exact ⟨hsub.append_right _, iff_self_and.mpr fun _ => endsHeard_of_heard hdel⟩

/-- One note more than a table holds, and the end of the last one. -/
def crowd (side : Side) : List Pass :=
  (List.range (maxLength + 1)).map
      (fun n : ℕ => ⟨true, n, ⟨side.port, .noteon, 0, n, 64, n⟩⟩) ++
    [⟨true, 60, ⟨side.port, .noteoff, 0, maxLength, 0, 0⟩⟩]

theorem inst_crowd_deleted : ∃ s outs s' outs',
    run (midiEventPass ⟨100, 10, 10, 5⟩) (initial 0 0) (crowd .inst) = .ok (s, outs) ∧
      run (midiEventPass ⟨100, 10, 10, 5⟩) (initial 0 0) (withoutIgnored 0 0 (crowd .inst)) =
        .ok (s', outs') ∧
      (∀ σ, s'.tables.get σ = s.tables.get σ) ∧ messages outs' = messages outs := by
  obtain ⟨s, outs, hrun⟩ : ∃ s outs,
    run (midiEventPass ⟨100, 10, 10, 5⟩) (initial 0 0) (crowd .inst) = .ok (s, outs) :=
      run_ok (by decide) (crowd .inst)
  obtain ⟨-, s', outs', hrun', htables, hsame⟩ :=
    ignored_notes_deleted ⟨100, 10, 10, 5⟩ 0 0 (crowd .inst) (by decide +kernel) hrun
  exact ⟨s, outs, s', outs', hrun, hrun', htables, hsame.mpr (by decide +kernel)⟩

/-- **The score ends a note that was ignored**: a message for a note that was
never in the table. -/
theorem score_crowd_not_deleted :
    ¬ ∀ (cfg : Config) (c₁ c₂ : ℤ) (ps : List Pass) (s : State) (outs : List Output),
      NoRestrike (actions c₁ c₂ ps) → NoStray (actions c₁ c₂ ps) →
      run (midiEventPass cfg) (initial c₁ c₂) ps = .ok (s, outs) →
      ∃ s' outs',
        run (midiEventPass cfg) (initial c₁ c₂) (withoutIgnored c₁ c₂ ps) = .ok (s', outs') ∧
          (∀ σ, s'.tables.get σ = s.tables.get σ) ∧ messages outs' = messages outs := by
  intro h
  have hshows : (run (tablesPass ⟨100, 10, 10, 5⟩ 0 0) noTables (crowd .score)).map
      (fun r => messages r.2) = .ok [⟨none, 50, .red⟩] := by decide +kernel
  have hwithout : (run (tablesPass ⟨100, 10, 10, 5⟩ 0 0) noTables
      (withoutIgnored 0 0 (crowd .score))).map (fun r => messages r.2) = .ok [] := by
    decide +kernel
  obtain ⟨s, outs, hrun⟩ : ∃ s outs,
    run (midiEventPass ⟨100, 10, 10, 5⟩) (initial 0 0) (crowd .score) = .ok (s, outs) :=
      run_ok (by decide) (crowd .score)
  obtain ⟨s', outs', hrun', -, hsame⟩ :=
    h _ 0 0 (crowd .score) s outs (by decide +kernel) (by decide +kernel) hrun
  rw [(run_tables hrun).1] at hshows
  rw [(run_tables hrun').1] at hwithout
  have hout : messages outs = [⟨none, 50, .red⟩] := Except.ok.inj hshows
  have hout' : messages outs' = [] := Except.ok.inj hwithout
  rw [hout, hout'] at hsame
  cases hsame

end MidiTraining
