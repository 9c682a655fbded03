/-
MidiTraining/Ledger.lean

What is sent, against the score.

Two accounts of the messages.  The first asks where a message comes from:
on any input, a message is *vouched for* if its tick was written by the
note-off of the same pass and if the score struck that pitch at that tick
(`messages_sound`).  The second asks where the notes of the score go: what
was sent and what is still owed make up what was struck (`ledger_pass`), so
when both tables are empty every note of the score was sent exactly once
(`score_sent_once`).

A note of the score is owed by its own entry while it sounds.  A note-off
that defers its result leaves the debt with the entry of the instrument it
writes to, which settles it when it ends.  Both accounts hold as long as
such a write reaches the note it is meant for; the removals of
`track_note_off` do not guarantee that, and the port of the score sends
even after a note-off that found nothing.
-/
import Mathlib.Algebra.BigOperators.Group.List.Lemmas
import Mathlib.Algebra.Order.Group.Multiset
import Mathlib.Tactic.Abel
import MidiTraining.Links

namespace MidiTraining

open SwapRemove FaultMachine

/-! ### Where a message comes from -/

/-- The score struck the pitch at the tick. -/
def StruckAt (as : List Action) (note tick : ℤ) : Prop :=
  ∃ t, Action.noteOn .score note t tick ∈ as

theorem StruckAt.snoc {as : List Action} {note tick : ℤ} (h : StruckAt as note tick) (a : Action) :
    StruckAt (as ++ [a]) note tick := by
  obtain ⟨t, ht⟩ := h
  exact ⟨t, List.mem_append_left _ ht⟩

/-- The tick was written by the note-off of the pass, and the score struck the
pitch at that tick. -/
def Vouched (as : List Action) (o : Output) (m : Message) : Prop :=
  ∃ k, o.wrote = some k ∧ m.tick = some k ∧ StruckAt as m.note k

/-- The tick an entry would send is one of the score. -/
def Known (as : List Action) : Side → Entry → Prop
  | .score, e => StruckAt as e.note e.tick
  | .inst, e => e.lend > -1 → StruckAt as e.note e.ltick

theorem Known.snoc {as : List Action} {σ : Side} {e : Entry} (h : Known as σ e) (a : Action) :
    Known (as ++ [a]) σ e := by
  cases σ with
  | score => exact StruckAt.snoc h a
  | inst => exact fun hlend => StruckAt.snoc (h hlend) a

/-- A note-off of the score finds its pitch, and if it defers its result its
write reaches a note of that pitch or none. -/
def SoundOff (t : Tables) : Action → Prop
  | .noteOff .score p _ => ∃ x ∈ firstAt (Entry.hasNote p) t.score,
      x.2.Waiting → ∀ r ∈ t.inst[x.2.link.toNat]?, r.note = p
  | _ => True

instance (t : Tables) : (a : Action) → Decidable (SoundOff t a)
  | .noteOff .score p _ => inferInstanceAs (Decidable (∃ x ∈ firstAt (Entry.hasNote p) t.score,
      x.2.Waiting → ∀ r ∈ t.inst[x.2.link.toNat]?, r.note = p))
  | .noteOff .inst .. => isTrue trivial
  | .noteOn .. => isTrue trivial
  | .ignored => isTrue trivial

/-- **One pass** keeps the ticks known. -/
theorem known_pass {cfg : Config} {c₁ c₂ : ℤ} {s s' : Tables} {p : Pass} {o : Output}
    {as : List Action} (h : tablesPass cfg c₁ c₂ s p = .ok (s', o))
    (hsound : SoundOff s (p.action c₁ c₂)) (hs : ∀ σ, ∀ e ∈ s.get σ, Known as σ e) :
    ∀ σ, ∀ e ∈ s'.get σ, Known (as ++ [p.action c₁ c₂]) σ e := by
  refine tablesPass_forall h hs (fun _ _ he => he.snoc _) ?_ ?_ ?_
  · intro side note t k l ha
    cases side with
    | score => exact ⟨t, by simp [ha, Entry.fresh]⟩
    | inst =>
      intro hlend
      exact absurd hlend (by simp [Entry.fresh])
  · intro side note t k l r _ hr _
    have hr := hr.snoc (p.action c₁ c₂)
    cases side <;> exact hr
  · intro side note t n e r ha hfind hw hr hknown
    cases side with
    | score =>
      -- the write carries the tick of `e` to a note of its pitch
      intro _
      rw [ha] at hsound
      obtain ⟨x, hx, hland⟩ := hsound
      obtain rfl : x = (n, e) := Option.some_inj.mp (hx.symm.trans hfind)
      have hnote : r.note = note := hland hw r hr
      have he : Known as .score e := hs .score e (firstAt_mem hfind)
      have hstruck := StruckAt.snoc he (p.action c₁ c₂)
      rw [Entry.hasNote_iff.mp (firstAt_test hfind), ← hnote] at hstruck
      exact hstruck
    | inst => exact hknown.snoc _

/-- The message of a pass is vouched for, if the ticks are known. -/
theorem vouched_of_known {cfg : Config} {c₁ c₂ : ℤ} {s s' : Tables} {p : Pass} {o : Output}
    {as : List Action} (h : tablesPass cfg c₁ c₂ s p = .ok (s', o))
    (hsound : SoundOff s (p.action c₁ c₂)) (hs : ∀ σ, ∀ e ∈ s.get σ, Known as σ e) :
    ∀ m ∈ o.sent, Vouched as o m := by
  intro m hm
  rcases ha : p.action c₁ c₂ with ⟨side, note, t, k⟩ | ⟨side, note, t⟩ | -
  · obtain ⟨rfl, -⟩ := tablesPass_of_noteOn h ha
    cases hm
  · rw [ha] at hsound
    obtain ⟨tick, sent, -, hsend, rfl⟩ := tablesPass_of_noteOff h ha
    rcases sendMessage_cases hsend with ⟨hsends, color, -, rfl⟩ | ⟨-, rfl⟩
    · obtain rfl := List.mem_singleton.mp hm
      rcases noteOff_cases cfg (s.get side) (s.get side.other) note t side.isInst with
        ⟨hnone, hoff⟩ | ⟨n, e, hfind, hoff⟩
      · -- nothing was found: the port of the instrument is silent then
        rw [hoff] at hsends
        cases side with
        | score =>
          obtain ⟨x, hx, -⟩ := hsound
          rw [show s.score = s.get .score from rfl, hnone] at hx
          cases hx
        | inst => exact absurd hsends Side.not_inst_sends_neg_one
      · have htick := noteOff_tick cfg (s.get side.other) t side.isInst hfind
        have hnote := Entry.hasNote_iff.mp (firstAt_test hfind)
        have hknown := hs side e (firstAt_mem hfind)
        refine ⟨tickOf side.isInst e, htick, by rw [htick]; rfl, ?_⟩
        show StruckAt as note _
        rw [← hnote]
        cases side with
        | score => exact hknown
        | inst =>
          rcases hoff with ⟨-, hoff⟩ | ⟨hans, -⟩ | ⟨-, hoff⟩
          · rw [hoff] at hsends
            exact absurd hsends Side.not_inst_sends_neg_one
          · exact hknown hans.2
          · rw [hoff] at hsends
            exact absurd hsends (Side.not_sends_neg_two _)
    · cases hm
  · obtain ⟨-, rfl⟩ := tablesPass_of_ignored h ha
    cases hm

/-- A note-off of the score finds its pitch. -/
def FindsScore (t : Tables) : Action → Prop
  | .noteOff .score p _ => ∃ e ∈ t.score, e.note = p
  | _ => True

/-- **Message soundness.**  If every note-off of the score is sound, every
message of the run is vouched for; and it is necessary that every note-off
of the score finds its pitch. -/
theorem messages_sound (cfg : Config) (c₁ c₂ : ℤ) (ps : List Pass) :
    (Guarded (midiEventPass cfg) (fun s p => SoundOff s.tables (p.action c₁ c₂))
        (initial c₁ c₂) ps →
      ∀ past p s outs s' o, past ++ [p] <+: ps →
        run (midiEventPass cfg) (initial c₁ c₂) past = .ok (s, outs) →
        midiEventPass cfg s p = .ok (s', o) →
        ∀ m ∈ o.sent, Vouched (actions c₁ c₂ past) o m) ∧
    (cfg.maxBadness ≠ 0 →
      (∀ past p s outs s' o, past ++ [p] <+: ps →
        run (midiEventPass cfg) (initial c₁ c₂) past = .ok (s, outs) →
        midiEventPass cfg s p = .ok (s', o) →
        ∀ m ∈ o.sent, Vouched (actions c₁ c₂ past) o m) →
      Guarded (midiEventPass cfg) (fun s p => FindsScore s.tables (p.action c₁ c₂))
        (initial c₁ c₂) ps) := by
  constructor
  · intro hsound past p s outs s' o hp hrun hstep
    have hguard := guarded_tables (C := fun t p => SoundOff t (p.action c₁ c₂)) hsound
    have hknown : ∀ σ, ∀ e ∈ s.tables.get σ, Known (actions c₁ c₂ past) σ e := by
      refine run_induction (fun past _ t => ∀ σ, ∀ e ∈ t.get σ, Known (actions c₁ c₂ past) σ e)
        ?_ ?_ (hguard.shorten ((List.prefix_append _ _).trans hp)) (run_tables hrun).1
      · simp
      · intro past _ t p t' o _ ih hs hpass
        rw [actions_snoc]
        exact known_pass hpass hs ih
    exact vouched_of_known (pass_tables hrun hstep).1 (hguard past p hp _ _ (run_tables hrun).1)
      hknown
  · intro hbad hvouched past p hp s outs hrun
    rcases ha : p.action c₁ c₂ with _ | ⟨side, note, t⟩ | _
    · trivial
    · cases side with
      | inst => trivial
      | score =>
        by_contra hnot
        -- nothing is found, and the message has no tick of this pass
        have hnone : firstAt (Entry.hasNote note) (s.tables.get .score) = none :=
          firstAt_eq_none_iff.mpr fun e he =>
            Entry.hasNote_eq_false_iff.mpr fun hnote => hnot ⟨e, he, hnote⟩
        obtain ⟨s', o, hs'⟩ := run_ok hbad (past ++ [p])
        obtain ⟨s₀, outs₀, o', h₀, hstep, rfl⟩ := run_snoc_ok.mp hs'
        obtain ⟨rfl, rfl⟩ : s = s₀ ∧ outs = outs₀ := by
          rw [hrun] at h₀
          simpa using h₀
        have hv := hvouched past p s outs s' o' hp hrun hstep
        obtain ⟨tick, sent, -, hsend, rfl⟩ := tablesPass_of_noteOff (pass_tables hrun hstep).1 ha
        have hoff : noteOff cfg (s.tables.get .score) (s.tables.get Side.score.other) note t
            Side.score.isInst =
              ⟨-1, none, s.tables.get .score, s.tables.get Side.score.other⟩ := by
          simp [noteOff, hnone]
        rw [hoff] at hsend hv
        rcases sendMessage_cases hsend with ⟨-, color, -, rfl⟩ | ⟨hsends, -⟩
        · obtain ⟨k, hk, -⟩ := hv _ (List.mem_singleton_self _)
          cases hk
        · exact hsends Side.score_sends_neg_one
    · trivial

theorem chordReversed_vouched : ∀ past p s outs s' o, past ++ [p] <+: chordReversed →
    run (midiEventPass ⟨100, 10, 10, 5⟩) (initial 0 0) past = .ok (s, outs) →
    midiEventPass ⟨100, 10, 10, 5⟩ s p = .ok (s', o) →
    ∀ m ∈ o.sent, Vouched (actions 0 0 past) o m :=
  (messages_sound ⟨100, 10, 10, 5⟩ 0 0 chordReversed).1
    (guarded_of_tables (C := fun t p => SoundOff t (p.action 0 0)) (by decide))

/-- **A note-off of the score that finds nothing sends a message whose tick
was never written.** -/
theorem stray_noteOff_not_vouched :
    ¬ ∀ (cfg : Config) (c₁ c₂ : ℤ) (past : List Pass) (p : Pass) (s s' : State)
      (outs : List Output) (o : Output),
      run (midiEventPass cfg) (initial c₁ c₂) past = .ok (s, outs) →
      midiEventPass cfg s p = .ok (s', o) → ∀ m ∈ o.sent, Vouched (actions c₁ c₂ past) o m := by
  intro h
  have htables : run (tablesPass ⟨100, 10, 10, 5⟩ 0 0) noTables
      ([] ++ [⟨true, 0, ⟨0, .noteoff, 0, 60, 0, 0⟩⟩]) =
        .ok (noTables, [⟨some (-1), none, [⟨none, 60, .red⟩]⟩]) := by decide
  obtain ⟨s', hs', -⟩ := run_of_tables htables
  obtain ⟨s, outs, o, hs, hstep, houts⟩ := run_snoc_ok.mp hs'
  obtain rfl : outs = [] := by
    rw [run_nil] at hs
    cases hs
    rfl
  obtain rfl := (List.cons.inj houts).1
  obtain ⟨k, hk, -⟩ := h _ 0 0 [] _ s s' [] _ hs hstep _ (List.mem_singleton_self _)
  cases hk

/-! ### Where the notes of the score go -/

/-- The (tick, pitch) pairs sent. -/
def sentPairs (outs : List Output) : Multiset (Option ℤ × ℤ) :=
  ↑((outs.flatMap Output.sent).map fun m => (m.tick, m.note))

/-- The (tick, pitch) pair an action of the score strikes. -/
def struckBy : Action → Multiset (Option ℤ × ℤ)
  | .noteOn .score note _ tick => {(some tick, note)}
  | _ => 0

/-- The (tick, pitch) pairs struck by the score. -/
def struckPairs (as : List Action) : Multiset (Option ℤ × ℤ) := (as.map struckBy).sum

/-- What an entry will send when it ends, or leave with its partner. -/
def owed : Side → Entry → Multiset (Option ℤ × ℤ)
  | .score, e => {(some e.tick, e.note)}
  | .inst, e => if e.Answered then {(some e.ltick, e.note)} else 0

/-- What the entries of a table owe. -/
def owes (σ : Side) (T : Table) : Multiset (Option ℤ × ℤ) := (T.map (owed σ)).sum

theorem sentPairs_snoc (outs : List Output) (o : Output) :
    sentPairs (outs ++ [o]) = sentPairs outs + sentPairs [o] := by
  simp [sentPairs]

theorem struckPairs_snoc (as : List Action) (a : Action) :
    struckPairs (as ++ [a]) = struckPairs as + struckBy a := by
  simp [struckPairs]

theorem owed_of_not_answered {e : Entry} (h : ¬ e.Answered) : owed .inst e = 0 := if_neg h

theorem owed_of_answered {e : Entry} (h : e.Answered) : owed .inst e = {(some e.ltick, e.note)} :=
  if_pos h

/-- The debts of a table do not depend on the order of its entries. -/
theorem owes_perm {σ : Side} {T T' : Table} (h : T.Perm T') : owes σ T = owes σ T' :=
  (h.map _).sum_eq

theorem owes_swapRemove {σ : Side} {T : Table} {n : ℕ} {e : Entry} (h : T[n]? = some e) :
    owes σ T = owed σ e + owes σ (swapRemove T n) := by
  rw [owes_perm (swapRemove_perm h), owes, List.map_cons, List.sum_cons]
  rfl

theorem owes_snoc (σ : Side) (T : Table) (e : Entry) : owes σ (T ++ [e]) = owes σ T + owed σ e := by
  simp [owes]

theorem owes_map {σ : Side} {T : Table} {f : Entry → Entry} (h : ∀ e ∈ T, owed σ (f e) = owed σ e) :
    owes σ (T.map f) = owes σ T := by
  rw [owes, List.map_map]
  exact congrArg List.sum (List.map_congr_left h)

/-- A write to one entry changes its debt only. -/
theorem owes_modify {σ : Side} {T : Table} {j : ℕ} {r : Entry} (h : T[j]? = some r)
    (f : Entry → Entry) : owes σ (T.modify j f) + owed σ r = owes σ T + owed σ (f r) := by
  obtain ⟨pre, post, rfl, rfl⟩ := exists_split h
  simp only [modify_append, owes, List.map_append, List.map_cons, List.sum_append, List.sum_cons]
  abel

/-- What both tables owe. -/
def owing (t : Tables) : Multiset (Option ℤ × ℤ) := owes .score t.score + owes .inst t.inst

theorem owing_eq (t : Tables) (side : Side) :
    owing t = owes side (t.get side) + owes side.other (t.get side.other) := by
  cases side with
  | score => rfl
  | inst => exact add_comm _ _

/-- An end is recorded with linked notes of the instrument only. -/
def EndsLinked (σ : Side) (e : Entry) : Prop := σ = .inst → e.lend > -1 → e.link > -1

theorem owed_linkTo {σ : Side} {r : Entry} (h : EndsLinked σ r) (note k : ℤ) :
    owed σ (r.linkTo note k) = owed σ r := by
  rcases hfree : r.free note with - | -
  · rw [Entry.linkTo_of_not_free hfree]
  · cases σ with
    | score => simp [owed]
    | inst =>
      have hlink := (Entry.free_iff.mp hfree).1
      have hlend : ¬ r.lend > -1 := by
        intro hlend
        have := h rfl hlend
        omega
      rw [owed_of_not_answered fun ha => hlend ha.2]
      refine owed_of_not_answered fun ha => hlend ?_
      simpa using ha.2

/-- A note-on of the score enters a debt. -/
theorem ledger_noteOn {side : Side} {T R : Table} (hroom : T.length < maxLength)
    (hR : ∀ r ∈ R, EndsLinked side.other r) (note t tick : ℤ) :
    owes side (noteOn T R note t tick).1 + owes side.other (noteOn T R note t tick).2 =
      owes side T + owes side.other R + struckBy (.noteOn side note t tick) := by
  rw [noteOn_of_room hroom, owes_snoc, owes_map fun r hr => owed_linkTo (hR r hr) note _]
  have hnew : owed side { Entry.fresh note t tick with link := newLink R note } =
      struckBy (.noteOn side note t tick) := by
    cases side with
    | score => rfl
    | inst => exact owed_of_not_answered fun ha => absurd ha.2 (by simp [Entry.fresh])
  rw [hnew]
  abel

/-- The grade of a pair is one that its side sends, and a note of the score
that defers its result leaves it with a waiting note of its pitch. -/
def Accountable (cfg : Config) (t : Tables) : Action → Prop
  | .noteOff σ p time => ∀ x ∈ firstAt (Entry.hasNote p) (t.get σ),
      (x.2.Answered → σ.Sends (weightedDelay cfg σ.isInst time x.2.start x.2.lstart x.2.lend)) ∧
      (σ = .score → x.2.Waiting → 0 ≤ time ∧
        ∃ r ∈ t.inst[x.2.link.toNat]?, r.note = p ∧ r.Waiting)
  | _ => True

instance (cfg : Config) (t : Tables) : (a : Action) → Decidable (Accountable cfg t a)
  | .noteOff σ p time => inferInstanceAs (Decidable (∀ x ∈ firstAt (Entry.hasNote p) (t.get σ),
      (x.2.Answered → σ.Sends (weightedDelay cfg σ.isInst time x.2.start x.2.lstart x.2.lend)) ∧
      (σ = .score → x.2.Waiting → 0 ≤ time ∧
        ∃ r ∈ t.inst[x.2.link.toNat]?, r.note = p ∧ r.Waiting)))
  | .noteOn .. => isTrue trivial
  | .ignored => isTrue trivial

theorem sentPairs_message {cfg : Config} {side : Side} {badness : ℤ} {tick : Option ℤ} {note : ℤ}
    {sent : List Message} (h : sendMessage cfg side badness tick note = .ok sent) (b w : Option ℤ) :
    sentPairs [⟨b, w, sent⟩] = if side.Sends badness then {(tick, note)} else 0 := by
  rcases sendMessage_cases h with ⟨hsends, color, -, rfl⟩ | ⟨hnot, rfl⟩
  · rw [if_pos hsends]
    rfl
  · rw [if_neg hnot]
    rfl

/-- A write to a note of the score changes no debt. -/
theorem owes_score_modify (R : Table) (j : ℕ) (e : Entry) (t : ℤ) :
    owes .score (R.modify j (e.receive t)) = owes .score R := by
  have howes (T : Table) : owes .score T =
      ((triples T).map fun x => ({(some x.2.2, x.1)} : Multiset (Option ℤ × ℤ))).sum := by
    rw [owes, triples, List.map_map]
    rfl
  rw [howes, howes, triples_modify_receive]

/-- A write to a waiting note of the instrument leaves it a debt. -/
theorem owes_inst_modify {R : Table} {j : ℕ} {r : Entry} (hr : R[j]? = some r) (hw : r.Waiting)
    (e : Entry) {t : ℤ} (ht : 0 ≤ t) :
    owes .inst (R.modify j (e.receive t)) = owes .inst R + {(some e.tick, r.note)} := by
  have hbefore : owed .inst r = 0 := owed_of_not_answered fun ha => hw.2 ha.2
  have hlend : (e.receive t r).lend > -1 := by
    rw [Entry.receive_lend]
    omega
  have hafter : owed .inst (e.receive t r) = {(some e.tick, r.note)} :=
    owed_of_answered ⟨hw.1, hlend⟩
  have h := owes_modify (σ := .inst) hr (e.receive t)
  rw [hbefore, hafter, add_zero] at h
  exact h

/-- **A note-off settles a debt**: it is sent, or left with the partner. -/
theorem ledger_noteOff {cfg : Config} {side : Side} {s : Tables} {note t : ℤ} {n : ℕ} {e : Entry}
    (hfind : firstAt (Entry.hasNote note) (s.get side) = some (n, e))
    (hacc : Accountable cfg s (.noteOff side note t)) {tick : Option ℤ} {sent : List Message}
    (hsend : sendMessage cfg side
      (noteOff cfg (s.get side) (s.get side.other) note t side.isInst).badness
      ((noteOff cfg (s.get side) (s.get side.other) note t side.isInst).tick.or tick) note
        = .ok sent) :
    ∀ b w, sentPairs [⟨b, w, sent⟩] +
        (owes side (noteOff cfg (s.get side) (s.get side.other) note t side.isInst).track +
          owes side.other (noteOff cfg (s.get side) (s.get side.other) note t side.isInst).ref) =
      owes side (s.get side) + owes side.other (s.get side.other) := by
  intro b w
  obtain ⟨hgrade, hdefer⟩ := hacc (n, e) hfind
  have hnote := Entry.hasNote_iff.mp (firstAt_test hfind)
  rw [sentPairs_message hsend, noteOff_tick cfg _ t _ hfind, Option.some_or,
    noteOff_track cfg _ t _ hfind, owes_swapRemove (firstAt_getElem? hfind)]
  rcases noteOff_cases cfg (s.get side) (s.get side.other) note t side.isInst with
    ⟨hnone, -⟩ | ⟨n', e', hfind', hoff⟩
  · rw [hfind] at hnone
    cases hnone
  · obtain ⟨rfl, rfl⟩ : n = n' ∧ e = e' := by
      rw [hfind] at hfind'
      simpa using hfind'
    rcases hoff with ⟨hun, hoff⟩ | ⟨hans, hoff⟩ | ⟨hw, hoff⟩
    · -- no partner: the score sends, the instrument owes nothing
      rw [hoff]
      cases side with
      | score =>
        rw [if_pos Side.score_sends_neg_one, Side.tickOf_score, ← hnote]
        exact (add_assoc _ _ _).symm
      | inst =>
        rw [if_neg Side.not_inst_sends_neg_one, owed_of_not_answered fun ha => hun ha.1]
        simp
    · -- graded: the entry's own debt is sent
      rw [hoff, if_pos (hgrade hans), ← hnote]
      cases side with
      | score => exact (add_assoc _ _ _).symm
      | inst =>
        rw [owed_of_answered hans]
        exact (add_assoc _ _ _).symm
    · -- deferred: the score leaves its debt with the partner
      rw [hoff, if_neg (Side.not_sends_neg_two _), zero_add]
      cases side with
      | score =>
        obtain ⟨ht, r, hr, hrnote, hrw⟩ := hdefer rfl hw
        show owes .score _ + owes .inst (s.inst.modify e.link.toNat (e.receive t)) = _
        rw [owes_inst_modify hr hrw e ht, hrnote, ← hnote]
        show _ + (owes .inst s.inst + owed .score e) = owed .score e + _ + owes .inst s.inst
        abel
      | inst =>
        show owes .inst _ + owes .score (s.score.modify e.link.toNat (e.receive t)) = _
        rw [owes_score_modify, owed_of_not_answered fun ha => hw.2 ha.2, zero_add]
        rfl

/-- **One pass**: what is sent and what is owed make up what was owed and
what is struck. -/
theorem ledger_pass {cfg : Config} {c₁ c₂ : ℤ} {s s' : Tables} {p : Pass} {o : Output}
    (h : tablesPass cfg c₁ c₂ s p = .ok (s', o)) (hroom : Room s (p.action c₁ c₂))
    (hfound : Found s (p.action c₁ c₂)) (hacc : Accountable cfg s (p.action c₁ c₂))
    (hends : ∀ σ, ∀ e ∈ s.get σ, EndsLinked σ e) :
    sentPairs [o] + owing s' = owing s + struckBy (p.action c₁ c₂) := by
  rcases ha : p.action c₁ c₂ with ⟨side, note, t, k⟩ | ⟨side, note, t⟩ | -
  · obtain ⟨rfl, tick, rfl⟩ := tablesPass_of_noteOn h ha
    rw [ha] at hroom
    rw [owing_eq _ side, owing_eq s side, Tables.get_put, Tables.get_put_other,
      ledger_noteOn hroom (hends side.other)]
    exact zero_add _
  · obtain ⟨tick, sent, rfl, hsend, rfl⟩ := tablesPass_of_noteOff h ha
    rw [ha] at hfound hacc
    rcases hfind : firstAt (Entry.hasNote note) (s.get side) with - | ⟨n, e⟩
    · obtain ⟨e, he, hnote⟩ := hfound
      exact absurd hnote (Entry.hasNote_eq_false_iff.mp (firstAt_eq_none_iff.mp hfind e he))
    · rw [owing_eq _ side, owing_eq s side, Tables.get_put, Tables.get_put_other,
        ledger_noteOff hfind hacc hsend]
      exact (add_zero _).symm
  · obtain ⟨hsame, rfl⟩ := tablesPass_of_ignored h ha
    rw [owing_eq s' .score, owing_eq s .score, hsame, hsame]
    exact (zero_add _).trans (add_zero _).symm

/-- Ends stay recorded with linked notes. -/
theorem endsLinked_pass {cfg : Config} {c₁ c₂ : ℤ} {s s' : Tables} {p : Pass} {o : Output}
    (h : tablesPass cfg c₁ c₂ s p = .ok (s', o)) (hacc : Accountable cfg s (p.action c₁ c₂))
    (hends : ∀ σ, ∀ e ∈ s.get σ, EndsLinked σ e) : ∀ σ, ∀ e ∈ s'.get σ, EndsLinked σ e := by
  refine tablesPass_forall h hends (fun _ _ he => he) ?_ ?_ ?_
  · intro side note t k l _ _ hlend
    exact absurd hlend (by simp [Entry.fresh])
  · intro side note t k l r _ _ _ _ _
    show (l : ℤ) > -1
    omega
  · intro side note t n e r ha hfind hw hr _ hside _
    cases side with
    | score =>
      rw [ha] at hacc
      obtain ⟨-, x, hx, -, hxw⟩ := (hacc (n, e) hfind).2 rfl hw
      obtain rfl : x = r := Option.some_inj.mp (hx.symm.trans hr)
      exact hxw.1
    | inst => cases hside

end MidiTraining
