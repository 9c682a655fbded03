/-
MidiTraining/Nested.lean

Nested releases.

A removal is harmless when it moves nothing, and it moves nothing when the
note that ends stands last in its table.  That is a matter of the events
alone: if on each port every note-off ends the sounding note that was struck
last (`Nested`), a table is a stack of the sounding pitches (`run_stack`)
and every removal takes its top.  One note at a time is the simplest case.

Under this condition on the events the results that otherwise ask for a
condition on the states hold outright:

* the links are mutual and writes reach their partner (`nested_links`);
* the messages are those of the grading law (`nested_graded`);
* at every point of the run the notes of the score are accounted for, sent
  or still owed (`nested_ledger`).
-/
import MidiTraining.Grading
import MidiTraining.Ledger

namespace MidiTraining

open SwapRemove FaultMachine

/-! ### Nested releases -/

/-- A note-off ends the sounding note of its side that was struck last. -/
def EndsLast (past : List Action) : Action → Prop
  | .noteOff σ p _ => (sounding σ past).head? = some p
  | _ => True

instance (past : List Action) : (a : Action) → Decidable (EndsLast past a)
  | .noteOff σ p _ => inferInstanceAs (Decidable ((sounding σ past).head? = some p))
  | .noteOn .. => isTrue trivial
  | .ignored => isTrue trivial

/-- On each side the notes end in the opposite order of their note-ons. -/
abbrev Nested (as : List Action) : Prop := Always EndsLast as

theorem Nested.noStray {as : List Action} (h : Nested as) : NoStray as := by
  intro past a ha
  have hlast := h past a ha
  cases a with
  | noteOff σ p t => exact List.mem_of_mem_head? hlast
  | noteOn => trivial
  | ignored => trivial

/-! ### Tables as stacks -/

/-- The first entry of a pitch that only the last entry has. -/
theorem firstAt_last {pre : Table} {e : Entry} {p : ℤ} (he : e.note = p)
    (hpre : ∀ x ∈ pre, x.note ≠ p) :
    firstAt (Entry.hasNote p) (pre ++ [e]) = some (pre.length, e) :=
  firstAt_eq_some_iff.mpr ⟨pre, [], rfl, rfl, Entry.hasNote_iff.mpr he,
    fun x hx => Entry.hasNote_eq_false_iff.mpr (hpre x hx)⟩

theorem swapRemove_last (pre : Table) (e : Entry) : swapRemove (pre ++ [e]) pre.length = pre := by
  rw [swapRemove_append, rotateLast_nil, List.append_nil]

/-- A table whose notes are a stack with `p` on top, which has no `p` below. -/
theorem exists_top {T : Table} {p : ℤ} {l : List ℤ} (h : T.map Entry.note = (p :: l).reverse)
    (hp : p ∉ l) : ∃ pre e, T = pre ++ [e] ∧ e.note = p ∧ pre.map Entry.note = l.reverse ∧
      ∀ x ∈ pre, x.note ≠ p := by
  rw [List.reverse_cons] at h
  obtain ⟨pre, top, rfl, hpre, htop⟩ := List.map_eq_append_iff.mp h
  obtain ⟨e, rfl, he⟩ := List.map_eq_singleton_iff.mp htop
  refine ⟨pre, e, rfl, he, hpre, ?_⟩
  rintro x hx rfl
  have hmem : x.note ∈ l.reverse := hpre ▸ List.mem_map_of_mem hx
  exact hp (List.mem_reverse.mp hmem)

/-- The notes of a side are the stack of its sounding pitches. -/
def Stacked (as : List Action) (t : Tables) : Prop :=
  ∀ σ, (t.get σ).map Entry.note = (sounding σ as).reverse

/-- A note-off takes the top. -/
theorem top_of_endsLast {as : List Action} {t : Tables} (h : Stacked as t)
    (hnodup : ∀ σ, (sounding σ as).Nodup) {σ : Side} {p u : ℤ}
    (hlast : EndsLast as (.noteOff σ p u)) : ∃ l pre e, sounding σ as = p :: l ∧
      t.get σ = pre ++ [e] ∧ pre.map Entry.note = l.reverse ∧
      firstAt (Entry.hasNote p) (t.get σ) = some (pre.length, e) := by
  obtain ⟨l, hl⟩ := List.head?_eq_some_iff.mp hlast
  have hp : p ∉ l := by
    have := hnodup σ
    rw [hl] at this
    exact (List.nodup_cons.mp this).1
  have hnotes := h σ
  rw [hl] at hnotes
  obtain ⟨pre, e, hT, he, hpre, hnot⟩ := exists_top hnotes hp
  refine ⟨l, pre, e, hl, hT, hpre, ?_⟩
  rw [hT]
  exact firstAt_last he hnot

section pass

variable {cfg : Config} {c₁ c₂ : ℤ} {s s' : Tables} {p : Pass} {o : Output} {as : List Action}

/-- **One pass** keeps the tables stacks. -/
theorem stacked_pass (h : tablesPass cfg c₁ c₂ s p = .ok (s', o)) (hs : Stacked as s)
    (hnodup : ∀ σ, (sounding σ as).Nodup) (hroom : Room s (p.action c₁ c₂))
    (hlast : EndsLast as (p.action c₁ c₂)) : Stacked (as ++ [p.action c₁ c₂]) s' := by
  intro σ
  rw [sounding_snoc]
  rcases ha : p.action c₁ c₂ with ⟨side, q, t, k⟩ | ⟨side, q, t⟩ | -
  · obtain ⟨-, tick, rfl⟩ := tablesPass_of_noteOn h ha
    rw [ha] at hroom
    have hroom : (s.get side).length < maxLength := hroom
    rw [noteOn_of_room hroom, soundStep]
    rcases Side.eq_or_eq_other side σ with rfl | rfl
    · rw [Tables.get_put, if_pos rfl, List.map_append, hs, List.reverse_cons]
      rfl
    · rw [Tables.get_put_other, if_neg (Side.ne_other side), map_linkTo (Entry.linkTo_note _ _), hs]
  · obtain ⟨tick, sent, rfl, -, -⟩ := tablesPass_of_noteOff h ha
    rw [ha] at hlast
    obtain ⟨l, pre, e, hl, hT, hpre, hfind⟩ := top_of_endsLast hs hnodup hlast
    rw [soundStep]
    rcases Side.eq_or_eq_other side σ with rfl | rfl
    · rw [Tables.get_put, noteOff_track cfg _ t _ hfind, if_pos rfl, hT, swapRemove_last, hl,
        List.erase_cons_head]
      exact hpre
    · rw [Tables.get_put_other, if_neg (Side.ne_other side),
        (sends_noteOff cfg _ t _ hfind).map_note, hs]
  · obtain ⟨hsame, -⟩ := tablesPass_of_ignored h ha
    rw [hsame]
    exact hs σ

/-- The removal of the top moves nothing. -/
theorem safe_of_stacked (hs : Stacked as s) (hnodup : ∀ σ, (sounding σ as).Nodup) {a : Action}
    (hlast : EndsLast as a) (htime : ∀ σ q t, a = .noteOff σ q t → 0 ≤ t) : SafeRemoval s a := by
  cases a with
  | noteOff σ q t =>
    obtain ⟨l, pre, e, -, hT, -, hfind⟩ := top_of_endsLast hs hnodup hlast
    refine ⟨htime σ q t rfl, ?_⟩
    intro x hx hlt
    obtain rfl : (pre.length, e) = x := Option.some_inj.mp (hfind.symm.trans hx)
    rw [hT, List.length_append, List.length_singleton] at hlt
    exact absurd hlt (lt_irrefl _)
  | noteOn => trivial
  | ignored => trivial

end pass

section runs

variable {cfg : Config} {c₁ c₂ : ℤ} {ps : List Pass}

/-- **The tables are stacks** of the sounding pitches. -/
theorem run_stack (hnew : NoRestrike (actions c₁ c₂ ps)) (hfit : NoOverflow (actions c₁ c₂ ps))
    (hnest : Nested (actions c₁ c₂ ps)) {t : Tables} {outs : List Output}
    (h : run (tablesPass cfg c₁ c₂) noTables ps = .ok (t, outs)) :
    Stacked (actions c₁ c₂ ps) t := by
  refine run_induction (fun past _ t => past <+: ps → Stacked (actions c₁ c₂ past) t) ?_ ?_
    (guarded_room hfit) h List.prefix_rfl
  · intro _ σ
    rw [noTables_get]
    rfl
  · intro past _ t p t' o _ ih hroom hstep hp
    have hpre : past <+: ps := (List.prefix_append _ _).trans hp
    have hlast : EndsLast (actions c₁ c₂ past) (p.action c₁ c₂) := by
      refine hnest _ _ ?_
      rw [← actions_snoc]
      exact hp.map _
    rw [actions_snoc]
    exact stacked_pass hstep (ih hpre) (sounding_nodup (hnew.shorten (hpre.map _))) hroom hlast

/-- Every removal of a nested run is safe. -/
theorem guarded_safe (hnew : NoRestrike (actions c₁ c₂ ps)) (hfit : NoOverflow (actions c₁ c₂ ps))
    (hnest : Nested (actions c₁ c₂ ps)) (htime : ∀ p ∈ ps, 0 ≤ p.time) :
    Guarded (tablesPass cfg c₁ c₂) (fun t p => SafeRemoval t (p.action c₁ c₂)) noTables ps := by
  intro past p hp t outs hrun
  have hpre : past <+: ps := (List.prefix_append _ _).trans hp
  have hnew' := hnew.shorten (hpre.map (Pass.action c₁ c₂))
  have hstack := run_stack hnew' (hfit.shorten (hpre.map _)) (hnest.shorten (hpre.map _)) hrun
  refine safe_of_stacked hstack (sounding_nodup hnew') ?_ ?_
  · refine hnest _ _ ?_
    rw [← actions_snoc]
    exact hp.map _
  · intro σ q u ha
    rw [← (Pass.of_noteOff ha).2.2]
    exact htime p (hp.subset (by simp))

/-- The tables of a nested run are paired, at every point of the run. -/
theorem nested_paired (hnew : NoRestrike (actions c₁ c₂ ps)) (hfit : NoOverflow (actions c₁ c₂ ps))
    (hnest : Nested (actions c₁ c₂ ps)) (htime : ∀ p ∈ ps, 0 ≤ p.time) {past : List Pass}
    (hp : past <+: ps) {t : Tables} {outs : List Output}
    (h : run (tablesPass cfg c₁ c₂) noTables past = .ok (t, outs)) :
    ∀ σ, Paired (t.get σ) (t.get σ.other) :=
  run_paired (hnew.shorten (hp.map _)) (hfit.shorten (hp.map _))
    ((guarded_safe hnew hfit hnest htime).shorten hp) h

/-- **The links of a nested run are mutual**, and a write through a link
reaches the live partner, at every point of the run. -/
theorem nested_links (cfg : Config) (c₁ c₂ : ℤ) (ps : List Pass)
    (hnew : NoRestrike (actions c₁ c₂ ps)) (hfit : NoOverflow (actions c₁ c₂ ps))
    (hnest : Nested (actions c₁ c₂ ps)) (htime : ∀ p ∈ ps, 0 ≤ p.time) :
    ∀ past s outs, past <+: ps → run (midiEventPass cfg) (initial c₁ c₂) past = .ok (s, outs) →
      MutualLinks s.tables ∧ ∀ a, WritesToPartner s.tables a := by
  intro past s outs hp h
  have hpaired := nested_paired hnew hfit hnest htime hp (run_tables h).1
  exact ⟨fun σ => (hpaired σ).links, Paired.writesToPartner hpaired⟩

/-! ### Grading -/

/-- Wherever the deferred results land, the tables follow the reference and
the messages are those of the law. -/
theorem run_follows (hnew : NoRestrike (actions c₁ c₂ ps)) (hstray : NoStray (actions c₁ c₂ ps))
    (hfit : NoOverflow (actions c₁ c₂ ps)) (htime : ∀ p ∈ ps, 0 ≤ p.time)
    (hw : cfg.NonnegWeights) (hbad : 0 < cfg.maxBadness)
    (hlands : Guarded (tablesPass cfg c₁ c₂) (fun t p => Lands t (p.action c₁ c₂)) noTables ps)
    {t : Tables} {outs : List Output}
    (h : run (tablesPass cfg c₁ c₂) noTables ps = .ok (t, outs)) :
    Follows (actions c₁ c₂ ps) (book (actions c₁ c₂ ps)) t ∧
      GradingLaw cfg (actions c₁ c₂ ps) (book (actions c₁ c₂ ps)) outs := by
  refine run_induction (fun past outs t => past <+: ps →
    Follows (actions c₁ c₂ past) (book (actions c₁ c₂ past)) t ∧
      GradingLaw cfg (actions c₁ c₂ past) (book (actions c₁ c₂ past)) outs) ?_ ?_
    ((((guarded_room hfit).and (guarded_fresh hfit hnew)).and (guarded_found hfit hstray)).and
      (hlands.and (guarded_of_forall htime))) h List.prefix_rfl
  · intro _
    refine ⟨by simp [Follows], ?_, ?_, ?_⟩ <;> simp [actions, book, Book.empty, sentAt]
  · rintro past outs t p t' o hpast ih ⟨⟨⟨hroom, hfresh⟩, hfound⟩, hl, ht⟩ hstep hp
    have hpre : past <+: ps := (List.prefix_append _ _).trans hp
    have hnew' := hnew.shorten (hpre.map (Pass.action c₁ c₂))
    have hperm (σ : Side) := run_sounding hpast (hfit.shorten (hpre.map (Pass.action c₁ c₂))) σ
    have hdistinct (σ : Side) : ((t.get σ).map Entry.note).Nodup :=
      (hperm σ).nodup_iff.mpr (sounding_nodup hnew' σ)
    have hsounds (σ : Side) (q : ℤ) (hq : (book (actions c₁ c₂ past)).sounding σ q ≠ none) :
        ∃ e ∈ t.get σ, e.note = q := by
      have hmem : q ∈ sounding σ (actions c₁ c₂ past) := by
        by_contra hnot
        exact hq ((book_sounding_eq_none_iff hnew' σ q).mpr hnot)
      exact List.mem_map.mp ((hperm σ).mem_iff.mpr hmem)
    have hlen : outs.length = (actions c₁ c₂ past).length := by
      rw [run_length hpast, actions, List.length_map]
    obtain ⟨hfollows, hlaw⟩ := ih hpre
    rw [actions_snoc]
    exact grading_pass hstep hw hbad (book_sane hnew') hdistinct hsounds hroom hfresh hfound hl ht
      hlen hfollows hlaw

/-- The deferred results of a nested run land. -/
theorem nested_lands (hnew : NoRestrike (actions c₁ c₂ ps)) (hfit : NoOverflow (actions c₁ c₂ ps))
    (hnest : Nested (actions c₁ c₂ ps)) (htime : ∀ p ∈ ps, 0 ≤ p.time) :
    Guarded (tablesPass cfg c₁ c₂) (fun t p => Lands t (p.action c₁ c₂)) noTables ps := by
  intro past p hp t outs hrun
  have hpaired := nested_paired hnew hfit hnest htime ((List.prefix_append _ _).trans hp) hrun
  have hwrites := Paired.writesToPartner hpaired (p.action c₁ c₂)
  rcases ha : p.action c₁ c₂ with _ | ⟨σ, q, u⟩ | _
  · trivial
  · rw [ha] at hwrites
    rintro ⟨n, e⟩ hx hw
    obtain ⟨r, hr, hnote, -⟩ := hwrites n e hx hw
    exact ⟨r, hr, hnote⟩
  · trivial

theorem weightedDelay_nonneg (hw : cfg.NonnegWeights) (σ : Side) (t start lstart lend : ℤ) :
    0 ≤ weightedDelay cfg σ.isInst t start lstart lend := by
  cases σ with
  | score =>
    rw [weightedDelay_score]
    exact pairDelay_nonneg hw _ _ _ _
  | inst =>
    rw [weightedDelay_inst]
    exact pairDelay_nonneg hw _ _ _ _

/-- A note of the score leaves its debt with a partner that waits. -/
theorem accountable_of_paired {t : Tables} (hpaired : ∀ σ, Paired (t.get σ) (t.get σ.other))
    (hw : cfg.NonnegWeights) {a : Action} (htime : ∀ σ q u, a = .noteOff σ q u → 0 ≤ u) :
    Accountable cfg t a := by
  cases a with
  | noteOff σ q u =>
    rintro ⟨n, e⟩ hx
    refine ⟨fun _ => σ.sends_of_nonneg (weightedDelay_nonneg hw σ _ _ _ _), ?_⟩
    rintro rfl hwait
    have hwrites := Paired.writesToPartner hpaired (.noteOff .score q u)
    obtain ⟨r, hr, hnote, hback⟩ := hwrites n e hx hwait
    have hlink : e.link > -1 := hwait.1
    have hlend : ¬ e.lend > -1 := hwait.2
    have hrange := (hpaired .score).range e (firstAt_mem hx)
    have hrlend := (hpaired .score).waits n e r (firstAt_getElem? hx) (by omega) (by omega) hr
    refine ⟨htime _ _ _ rfl, r, hr, hnote, ?_, ?_⟩ <;> omega
  | noteOn => trivial
  | ignored => trivial

/-- What is sent and what is owed make up what is struck, if every note-off
of the run is accountable. -/
theorem run_ledger (hfit : NoOverflow (actions c₁ c₂ ps)) (hstray : NoStray (actions c₁ c₂ ps))
    (hacc : Guarded (tablesPass cfg c₁ c₂) (fun t p => Accountable cfg t (p.action c₁ c₂))
      noTables ps)
    {t : Tables} {outs : List Output}
    (h : run (tablesPass cfg c₁ c₂) noTables ps = .ok (t, outs)) :
    sentPairs outs + owing t = struckPairs (actions c₁ c₂ ps) ∧
      ∀ σ, ∀ e ∈ t.get σ, EndsLinked σ e := by
  refine run_induction (fun past outs t =>
    sentPairs outs + owing t = struckPairs (actions c₁ c₂ past) ∧
      ∀ σ, ∀ e ∈ t.get σ, EndsLinked σ e) ?_ ?_
    (((guarded_room hfit).and (guarded_found hfit hstray)).and hacc) h
  · exact ⟨rfl, by simp⟩
  · rintro past outs t p t' o - ⟨hsum, hends⟩ ⟨⟨hroom, hfound⟩, hacc⟩ hstep
    refine ⟨?_, endsLinked_pass hstep hacc hends⟩
    rw [actions_snoc, struckPairs_snoc, sentPairs_snoc, ← hsum, add_assoc,
      ledger_pass hstep hroom hfound hacc hends, add_assoc]

/-- The note-offs of a nested run are accountable. -/
theorem guarded_accountable (hnew : NoRestrike (actions c₁ c₂ ps))
    (hfit : NoOverflow (actions c₁ c₂ ps)) (hnest : Nested (actions c₁ c₂ ps))
    (htime : ∀ p ∈ ps, 0 ≤ p.time) (hw : cfg.NonnegWeights) {past : List Pass}
    (hp : past <+: ps) :
    Guarded (tablesPass cfg c₁ c₂) (fun t p => Accountable cfg t (p.action c₁ c₂)) noTables
      past := by
  intro before p hbefore t outs hrun
  have hpre : before ++ [p] <+: ps := hbefore.trans hp
  refine accountable_of_paired (nested_paired hnew hfit hnest htime
    ((List.prefix_append _ _).trans hpre) hrun) hw ?_
  intro σ q u ha
  rw [← (Pass.of_noteOff ha).2.2]
  exact htime p (hpre.subset (by simp))

end runs

theorem chordReversed_links : ∃ s outs,
    run (midiEventPass ⟨100, 10, 10, 5⟩) (initial 0 0) (chordReversed.take 5) = .ok (s, outs) ∧
      MutualLinks s.tables := by
  obtain ⟨s, outs, h⟩ : ∃ s outs, run (midiEventPass ⟨100, 10, 10, 5⟩) (initial 0 0)
    (chordReversed.take 5) = .ok (s, outs) := run_ok (by decide) _
  exact ⟨s, outs, h, (nested_links _ 0 0 chordReversed (by decide) (by decide) (by decide)
    (by decide) _ s outs (List.take_prefix 5 _) h).1⟩

end MidiTraining
