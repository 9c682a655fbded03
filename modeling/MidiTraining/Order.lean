/-
MidiTraining/Order.lean

The order in which notes of one pitch are released.

`queue` is what a first-in first-out reading of the events says: the strikes
of a pitch on a side that still sound, oldest first.  A note-off ends the
first entry of its pitch in the table, so it ends the oldest as long as the
table keeps the entries of the pitch in the order struck.  The table is no
queue: a removal moves its last entry into the freed slot, and the order of
a pitch survives the removals that move no entry of that pitch over another
one of it (`InOrder`).  A note of another pitch, removed from before two of
one pitch, lets the younger one overtake (`younger_released_first`).
-/
import MidiTraining.Sounding

namespace MidiTraining

open SwapRemove FaultMachine

/-! ### First in, first out -/

/-- What an action does to the strikes of pitch `p` on a side. -/
def queueStep (side : Side) (p : ℤ) (q : List (ℤ × ℤ)) : Action → List (ℤ × ℤ)
  | .noteOn σ note t tick => if σ = side ∧ note = p then q ++ [(t, tick)] else q
  | .noteOff σ note _ => if σ = side ∧ note = p then q.tail else q
  | .ignored => q

/-- The strikes of pitch `p` on a side that still sound, start and tick of
each, oldest first. -/
def queue (side : Side) (p : ℤ) (as : List Action) : List (ℤ × ℤ) :=
  as.foldl (queueStep side p) []

theorem queue_snoc (side : Side) (p : ℤ) (as : List Action) (a : Action) :
    queue side p (as ++ [a]) = queueStep side p (queue side p as) a := by
  simp [queue]

/-- Every note-off of a pitch on a side ends the oldest strike of the pitch,
and leaves the younger ones in the table. -/
def ReleasesInOrder (cfg : Config) (c₁ c₂ : ℤ) (side : Side) (note : ℤ) (ps : List Pass) : Prop :=
  ∀ past p s outs s' o t n e, past ++ [p] <+: ps →
    run (midiEventPass cfg) (initial c₁ c₂) past = .ok (s, outs) →
    midiEventPass cfg s p = .ok (s', o) → p.action c₁ c₂ = .noteOff side note t →
    firstAt (Entry.hasNote note) (s.tables.get side) = some (n, e) →
    ∃ younger, queue side note (actions c₁ c₂ past) = (e.start, e.tick) :: younger ∧
      ((s'.tables.get side).filter (Entry.hasNote note)).map (fun e => (e.start, e.tick)) = younger

/-! ### The strikes in a table -/

/-- Start and tick of the entries of pitch `p`, in the order of the table. -/
def strikes (T : Table) (p : ℤ) : List (ℤ × ℤ) :=
  (T.filter (Entry.hasNote p)).map fun e => (e.start, e.tick)

theorem strikes_eq (T : Table) (p : ℤ) :
    strikes T p = ((triples T).filter fun x => decide (x.1 = p)).map Prod.snd := by
  rw [strikes, triples, List.filter_map, List.map_map]
  rfl

theorem strikes_congr {T T' : Table} (h : triples T = triples T') (p : ℤ) :
    strikes T p = strikes T' p := by
  rw [strikes_eq, strikes_eq, h]

theorem strikes_append (T T' : Table) (p : ℤ) :
    strikes (T ++ T') p = strikes T p ++ strikes T' p := by
  simp [strikes]

theorem strikes_cons (e : Entry) (T : Table) (p : ℤ) :
    strikes (e :: T) p = if e.note = p then (e.start, e.tick) :: strikes T p else strikes T p := by
  split
  · rename_i h
    rw [strikes, List.filter_cons_of_pos (Entry.hasNote_iff.mpr h)]
    rfl
  · rename_i h
    rw [strikes, List.filter_cons_of_neg (by simpa using h)]
    rfl

theorem strikes_of_absent {T : Table} {p : ℤ} (h : ∀ e ∈ T, e.hasNote p = false) :
    strikes T p = [] := by
  rw [strikes, List.filter_eq_nil_iff.mpr fun e he => by simp [h e he]]
  rfl

/-- The note-off that a pass asks for moves no entry of pitch `q` over
another one of pitch `q`, on the given side. -/
def InOrder (side : Side) (q : ℤ) (t : Tables) : Action → Prop
  | .noteOff σ p _ => σ = side → ∀ x ∈ firstAt (Entry.hasNote p) (t.get σ),
      ∀ z ∈ ((t.get σ).drop (x.1 + 1)).getLast?, z.hasNote q = true →
        ∀ y ∈ ((t.get σ).drop (x.1 + 1)).dropLast, y.hasNote q = false
  | _ => True

instance (side : Side) (q : ℤ) (t : Tables) : (a : Action) → Decidable (InOrder side q t a)
  | .noteOff σ p _ => inferInstanceAs (Decidable (σ = side →
      ∀ x ∈ firstAt (Entry.hasNote p) (t.get σ),
        ∀ z ∈ ((t.get σ).drop (x.1 + 1)).getLast?, z.hasNote q = true →
          ∀ y ∈ ((t.get σ).drop (x.1 + 1)).dropLast, y.hasNote q = false))
  | .noteOn .. => isTrue trivial
  | .ignored => isTrue trivial

/-- A removal that keeps the order takes out one strike of its own pitch, the
first one, and none of another. -/
theorem strikes_swapRemove {T : Table} {note p : ℤ} {n : ℕ} {e : Entry}
    (hfind : firstAt (Entry.hasNote note) T = some (n, e))
    (hkeep : ∀ z ∈ (T.drop (n + 1)).getLast?, z.hasNote p = true →
      ∀ y ∈ (T.drop (n + 1)).dropLast, y.hasNote p = false) :
    strikes T p =
      if note = p then (e.start, e.tick) :: strikes (swapRemove T n) p
      else strikes (swapRemove T n) p := by
  obtain ⟨pre, post, rfl, rfl, he, hpre⟩ := firstAt_eq_some_iff.mp hfind
  rw [drop_succ_append] at hkeep
  have hrot : strikes (rotateLast post) p = strikes post p :=
    congrArg (List.map _) (filter_rotateLast_of hkeep)
  rw [Entry.hasNote_iff] at he
  rw [swapRemove_append, strikes_append, strikes_append, hrot, strikes_cons, he]
  split
  · rename_i heq
    subst heq
    rw [strikes_of_absent hpre]
    rfl
  · rfl

/-- **One pass**: the strikes in the tables follow the queue. -/
theorem strikes_pass {cfg : Config} {c₁ c₂ : ℤ} {s s' : Tables} {p : Pass} {o : Output}
    (h : tablesPass cfg c₁ c₂ s p = .ok (s', o)) (hroom : Room s (p.action c₁ c₂))
    {σ : Side} {q : ℤ} (hkeep : InOrder σ q s (p.action c₁ c₂)) :
    strikes (s'.get σ) q = queueStep σ q (strikes (s.get σ) q) (p.action c₁ c₂) := by
  rcases tablesPass_cases h with ⟨side, note, t, k, tick, ha, rfl, -⟩ |
    ⟨side, note, t, tick, sent, ha, rfl, -, -⟩ | ⟨ha, hsame, -⟩
  · rw [ha] at hroom ⊢
    rcases Side.eq_or_eq_other side σ with rfl | rfl
    · rw [Tables.get_put, noteOn_of_room hroom, strikes_append, strikes_cons, queueStep]
      by_cases hq : note = q
      · rw [if_pos (show Entry.note _ = q from hq), if_pos ⟨rfl, hq⟩]
        rfl
      · rw [if_neg (show ¬ Entry.note _ = q from hq), if_neg fun hand => hq hand.2]
        exact List.append_nil _
    · rw [Tables.get_put_other, queueStep, if_neg fun hand => Side.ne_other side hand.1]
      exact strikes_congr (triples_noteOn_ref _ _ _ _ _) q
  · rw [ha] at hkeep ⊢
    rcases Side.eq_or_eq_other side σ with rfl | rfl
    · rw [Tables.get_put, queueStep]
      rcases hfind : firstAt (Entry.hasNote note) (s.get σ) with - | ⟨n, e⟩
      · simp only [noteOff, hfind]
        split
        · rename_i hand
          obtain ⟨-, rfl⟩ := hand
          rw [strikes_of_absent (firstAt_eq_none_iff.mp hfind)]
          rfl
        · rfl
      · rw [noteOff_track cfg _ _ _ hfind, strikes_swapRemove hfind (hkeep rfl _ hfind)]
        by_cases hq : note = q
        · rw [if_pos hq, if_pos ⟨rfl, hq⟩]
          rfl
        · rw [if_neg hq, if_neg fun hand => hq hand.2]
    · rw [Tables.get_put_other, queueStep, if_neg fun hand => Side.ne_other side hand.1]
      exact strikes_congr (triples_noteOff_ref _ _ _ _ _ _) q
  · rw [ha, hsame]
    rfl

/-! ### The program -/

/-- **Notes of one pitch are released in the order struck**, if no note-off
of the run moves one of them over another. -/
theorem released_in_order (cfg : Config) (c₁ c₂ : ℤ) (side : Side) (note : ℤ) (ps : List Pass)
    (hfit : NoOverflow (actions c₁ c₂ ps))
    (hkeep : Guarded (midiEventPass cfg) (fun s p => InOrder side note s.tables (p.action c₁ c₂))
      (initial c₁ c₂) ps) : ReleasesInOrder cfg c₁ c₂ side note ps := by
  intro past p s outs s' o t n e hp hrun hpass ha hfind
  have hroom : Guarded (tablesPass cfg c₁ c₂) (fun t p => Room t (p.action c₁ c₂)) noTables ps :=
    guarded_room hfit
  have hguard := hroom.and
    (guarded_tables (C := fun t p => InOrder side note t (p.action c₁ c₂)) hkeep)
  obtain ⟨htables, -⟩ := run_tables hrun
  have hpast : past <+: ps := (List.prefix_append _ _).trans hp
  have hstrikes : strikes (s.tables.get side) note = queue side note (actions c₁ c₂ past) := by
    refine run_induction (fun past _ t =>
      strikes (t.get side) note = queue side note (actions c₁ c₂ past)) ?_ ?_
      (hguard.shorten hpast) htables
    · rw [noTables_get]
      rfl
    · rintro past os t p t' o - ih ⟨hroom, hin⟩ hstep
      rw [strikes_pass hstep hroom hin, ih, actions_snoc, queue_snoc]
  obtain ⟨-, hin⟩ := hguard past p hp _ _ htables
  rw [ha] at hin
  obtain ⟨hstep, -⟩ := pass_tables hrun hpass
  obtain ⟨tick, sent, hs', -, -⟩ := tablesPass_of_noteOff hstep ha
  refine ⟨strikes (s'.tables.get side) note, ?_, rfl⟩
  rw [← hstrikes, strikes_swapRemove hfind (hin rfl _ hfind), if_pos rfl, hs', Tables.get_put,
    noteOff_track cfg _ _ _ hfind]

/-- Two strikes of one pitch, then one of another, released in order. -/
def unison : List Pass :=
  [⟨true, 0, ⟨0, .noteon, 0, 60, 64, 0⟩⟩, ⟨true, 10, ⟨0, .noteon, 0, 60, 64, 480⟩⟩,
    ⟨true, 20, ⟨0, .noteon, 0, 64, 64, 960⟩⟩, ⟨true, 30, ⟨0, .noteoff, 0, 60, 0, 0⟩⟩,
    ⟨true, 40, ⟨0, .noteoff, 0, 60, 0, 0⟩⟩, ⟨true, 50, ⟨0, .noteoff, 0, 64, 0, 0⟩⟩]

theorem unison_released_in_order : ReleasesInOrder ⟨100, 10, 10, 5⟩ 0 0 .score 60 unison :=
  released_in_order ⟨100, 10, 10, 5⟩ 0 0 .score 60 unison (by decide)
    (guarded_of_tables (C := fun t p => InOrder .score 60 t (p.action 0 0)) (by decide))

/-- A note, then two strikes of another pitch; the first note is released
first. -/
def overtaken : List Pass :=
  [⟨true, 0, ⟨0, .noteon, 0, 64, 64, 0⟩⟩, ⟨true, 10, ⟨0, .noteon, 0, 60, 64, 480⟩⟩,
    ⟨true, 20, ⟨0, .noteon, 0, 60, 64, 960⟩⟩, ⟨true, 30, ⟨0, .noteoff, 0, 64, 0, 0⟩⟩,
    ⟨true, 40, ⟨0, .noteoff, 0, 60, 0, 0⟩⟩]

/-- **The younger of two notes overtakes the older one** when a note struck
before both is removed. -/
theorem younger_released_first :
    ¬ ∀ (cfg : Config) (c₁ c₂ : ℤ) (side : Side) (note : ℤ) (ps : List Pass),
      NoOverflow (actions c₁ c₂ ps) → ReleasesInOrder cfg c₁ c₂ side note ps := by
  intro h
  have hpast : run (tablesPass ⟨100, 10, 10, 5⟩ 0 0) noTables (overtaken.take 4) =
      .ok (⟨[⟨60, 20, 960, -1, -1, -1, -1⟩, ⟨60, 10, 480, -1, -1, -1, -1⟩], [], some 0⟩,
        [.silent, .silent, .silent, ⟨some (-1), some 0, [⟨some 0, 64, .red⟩]⟩]) := by decide
  obtain ⟨s, hs, ht⟩ := run_of_tables hpast
  have hstep : tablesPass ⟨100, 10, 10, 5⟩ 0 0 s.tables ⟨true, 40, ⟨0, .noteoff, 0, 60, 0, 0⟩⟩ =
      .ok (⟨[⟨60, 10, 480, -1, -1, -1, -1⟩], [], some 960⟩,
        ⟨some (-1), some 960, [⟨some 960, 60, .red⟩]⟩) := by
    rw [ht]
    decide
  obtain ⟨s', hs', -⟩ := pass_of_tables hs hstep
  obtain ⟨younger, hhead, -⟩ := h ⟨100, 10, 10, 5⟩ 0 0 .score 60 overtaken (by decide) _ _ s _ s' _
    40 0 ⟨60, 20, 960, -1, -1, -1, -1⟩ List.prefix_rfl hs hs' rfl (by rw [ht]; rfl)
  cases hhead

end MidiTraining
