/-
MidiTraining/Contents.lean

The tables hold exactly the sounding notes, and drain.

The contents of a table is the multiset of the (pitch, start, tick) triples
of its entries.  `ContentsStep` says what an action does to the contents of
the two sides, without tables: a note-on adds its triple if there is room, a
note-off takes out one triple of its pitch if there is one, and the other
side keeps its own.  Every run of the program is such a reference run
(`ContentsRun`), so the removal by swapping neither loses nor duplicates an
entry, whatever the links.

Draining is a counting argument over a whole run.  At any point the number
of entries of a pitch is at most the excess of note-ons over note-offs of
that pitch in some final stretch of the run so far (`count_le_excess`); if
every note-on has its own later note-off, no stretch has an excess at the
end (`Matched.excess_le_zero`).
-/
import Mathlib.Algebra.Order.Group.Nat
import Mathlib.Data.Finset.Card
import Mathlib.Data.Multiset.Count
import Mathlib.Data.Multiset.AddSub
import MidiTraining.Refine

namespace MidiTraining

open SwapRemove FaultMachine

/-- The actions of a run. -/
def actions (c₁ c₂ : ℤ) (ps : List Pass) : List Action := ps.map (Pass.action c₁ c₂)

theorem actions_snoc (c₁ c₂ : ℤ) (ps : List Pass) (p : Pass) :
    actions c₁ c₂ (ps ++ [p]) = actions c₁ c₂ ps ++ [p.action c₁ c₂] := by
  simp [actions]

/-! ### The contents of a table -/

/-- Pitch, start and tick of an entry. -/
def Entry.triple (e : Entry) : ℤ × ℤ × ℤ := (e.note, e.start, e.tick)

/-- The triples of a table, in the order of its entries. -/
def triples (T : Table) : List (ℤ × ℤ × ℤ) := T.map Entry.triple

/-- The triples of a table, as a multiset. -/
def contents (T : Table) : Multiset (ℤ × ℤ × ℤ) := ↑(triples T)

theorem length_triples (T : Table) : (triples T).length = T.length := by
  simp [triples]

theorem card_contents (T : Table) : (contents T).card = T.length := length_triples T

/-- Linking changes no triple. -/
theorem triples_map_linkTo (R : Table) (p k : ℤ) :
    triples (R.map (Entry.linkTo p k)) = triples R :=
  map_linkTo (fun r => by simp [Entry.triple]) R

/-- Neither does a write through a link. -/
theorem triples_modify_receive (R : Table) (j : ℕ) (e : Entry) (t : ℤ) :
    triples (R.modify j (e.receive t)) = triples R :=
  map_modify_receive (fun _ => rfl) R j

/-- The other table keeps its triples, in place. -/
theorem triples_noteOn_ref (T R : Table) (note t tick : ℤ) :
    triples (noteOn T R note t tick).2 = triples R := by
  by_cases hroom : T.length < maxLength
  · rw [noteOn_of_room hroom]
    exact triples_map_linkTo R note T.length
  · rw [noteOn_of_full hroom]

theorem triples_noteOff_ref (cfg : Config) (T R : Table) (note t isInst : ℤ) :
    triples (noteOff cfg T R note t isInst).ref = triples R := by
  rcases noteOff_cases cfg T R note t isInst with ⟨-, h⟩ | ⟨n, e, -, h⟩
  · rw [h]
  · rcases h with ⟨-, h⟩ | ⟨-, h⟩ | ⟨-, h⟩ <;> rw [h]
    exact triples_modify_receive R _ e t

/-- A note-on adds its triple if there is room. -/
theorem contents_noteOn (T R : Table) (note t tick : ℤ) :
    contents (noteOn T R note t tick).1 =
      if (contents T).card < maxLength then (note, t, tick) ::ₘ contents T else contents T := by
  rw [card_contents]
  by_cases hroom : T.length < maxLength
  · rw [noteOn_of_room hroom, if_pos hroom]
    simp only [contents, triples, List.map_append, List.map_singleton, Entry.triple, Entry.fresh]
    exact Multiset.coe_eq_coe.mpr (List.perm_append_singleton _ _)
  · rw [noteOn_of_full hroom, if_neg hroom]

/-- A note-off takes out one triple of its pitch, or finds none. -/
theorem contents_noteOff (cfg : Config) (T R : Table) (note t isInst : ℤ) :
    (∃ x ∈ contents T, x.1 = note ∧
      contents T = x ::ₘ contents (noteOff cfg T R note t isInst).track) ∨
    ((∀ x ∈ contents T, x.1 ≠ note) ∧
      contents (noteOff cfg T R note t isInst).track = contents T) := by
  rcases noteOff_cases cfg T R note t isInst with ⟨hnone, h⟩ | ⟨n, e, hfirst, h⟩
  · right
    refine ⟨?_, by rw [h]⟩
    intro x hx
    obtain ⟨e, he, rfl⟩ : ∃ e ∈ T, Entry.triple e = x := by
      simpa [contents, triples] using hx
    simpa [Entry.triple] using firstAt_eq_none_iff.mp hnone e he
  · left
    have htrack : (noteOff cfg T R note t isInst).track = swapRemove T n := by
      rcases h with ⟨-, h⟩ | ⟨-, h⟩ | ⟨-, h⟩ <;> rw [h]
    have hperm := (swapRemove_perm (firstAt_getElem? hfirst)).map Entry.triple
    refine ⟨e.triple, ?_, by simpa [Entry.triple] using firstAt_test hfirst, ?_⟩
    · exact Multiset.mem_coe.mpr (List.mem_map_of_mem (firstAt_mem hfirst))
    · rw [htrack]
      exact Multiset.coe_eq_coe.mpr hperm

/-! ### Reference runs -/

/-- What an action does to the contents of the two sides. -/
def ContentsStep (a : Action) (M M' : Side → Multiset (ℤ × ℤ × ℤ)) : Prop :=
  match a with
  | .noteOn side note t tick =>
      M' side.other = M side.other ∧
        M' side = if (M side).card < maxLength then (note, t, tick) ::ₘ M side else M side
  | .noteOff side note _ =>
      M' side.other = M side.other ∧
        ((∃ x ∈ M side, x.1 = note ∧ M side = x ::ₘ M' side) ∨
          ((∀ x ∈ M side, x.1 ≠ note) ∧ M' side = M side))
  | .ignored => M' = M

/-- The contents a list of actions may lead to from nothing. -/
inductive ContentsRun : List Action → (Side → Multiset (ℤ × ℤ × ℤ)) → Prop
  | nil : ContentsRun [] fun _ => 0
  | snoc {as : List Action} {a : Action} {M M' : Side → Multiset (ℤ × ℤ × ℤ)} :
      ContentsRun as M → ContentsStep a M M' → ContentsRun (as ++ [a]) M'

/-- **One pass** is one reference step, and leaves the triples of the side
that does not act in place. -/
theorem tablesPass_contents {cfg : Config} {c₁ c₂ : ℤ} {s s' : Tables} {p : Pass} {o : Output}
    (h : tablesPass cfg c₁ c₂ s p = .ok (s', o)) :
    ContentsStep (p.action c₁ c₂) (fun σ => contents (s.get σ)) (fun σ => contents (s'.get σ)) := by
  rcases tablesPass_cases h with ⟨side, note, t, k, tick, ha, rfl, -⟩ |
    ⟨side, note, t, tick, sent, ha, rfl, -, -⟩ | ⟨ha, hs, -⟩
  · rw [ha]
    refine ⟨?_, ?_⟩
    · simp only [Tables.get_put_other, contents, triples_noteOn_ref]
    · simp only [Tables.get_put]
      exact contents_noteOn _ _ _ _ _
  · rw [ha]
    refine ⟨?_, ?_⟩
    · simp only [Tables.get_put_other, contents, triples_noteOff_ref]
    · simp only [Tables.get_put]
      exact contents_noteOff _ _ _ _ _ _
  · rw [ha]
    funext σ
    exact congrArg contents (hs σ)

/-- **Every run** of the tables is a reference run. -/
theorem run_contents {cfg : Config} {c₁ c₂ : ℤ} {ps : List Pass} {s : Tables} {outs : List Output}
    (h : run (tablesPass cfg c₁ c₂) noTables ps = .ok (s, outs)) :
    ContentsRun (actions c₁ c₂ ps) fun σ => contents (s.get σ) := by
  refine run_induction (C := fun _ _ => True)
    (fun ps _ s => ContentsRun (actions c₁ c₂ ps) fun σ => contents (s.get σ)) ?_ ?_
    (fun _ _ _ _ _ _ => trivial) h
  · have hnil : (fun σ => contents (noTables.get σ)) = fun _ => 0 := by
      funext σ
      rw [noTables_get]
      rfl
    rw [hnil]
    exact .nil
  · intro ps outs s p s' o _ ih _ hstep
    rw [actions_snoc]
    exact ih.snoc (tablesPass_contents hstep)

/-! ### Draining -/

/-- A note-on of pitch `p` on a side. -/
def Action.isOn (side : Side) (p : ℤ) : Action → Bool
  | .noteOn σ note _ _ => decide (σ = side ∧ note = p)
  | _ => false

/-- A note-off of pitch `p` on a side. -/
def Action.isOff (side : Side) (p : ℤ) : Action → Bool
  | .noteOff σ note _ => decide (σ = side ∧ note = p)
  | _ => false

/-- Each note-on of the side can be matched with its own later note-off of
the same pitch. -/
def Matched (side : Side) (as : List Action) : Prop :=
  ∃ f : ℕ → ℕ,
    (∀ i p t k, as[i]? = some (.noteOn side p t k) →
      i < f i ∧ ∃ t', as[f i]? = some (.noteOff side p t')) ∧
    ∀ i j p q t u k l, as[i]? = some (.noteOn side p t k) → as[j]? = some (.noteOn side q u l) →
      f i = f j → i = j

/-- How many entries of pitch `p` a contents has. -/
def pitchCount (p : ℤ) (M : Multiset (ℤ × ℤ × ℤ)) : ℕ := M.countP fun x => x.1 = p

theorem pitchCount_cons (p : ℤ) (x : ℤ × ℤ × ℤ) (M : Multiset (ℤ × ℤ × ℤ)) :
    pitchCount p (x ::ₘ M) = pitchCount p M + if x.1 = p then 1 else 0 :=
  Multiset.countP_cons _ _ _

/-- A note-on adds at most one entry of its pitch; a note-off takes one away,
or leaves none. -/
theorem pitchCount_step (side : Side) (p : ℤ) {a : Action} {M M' : Side → Multiset (ℤ × ℤ × ℤ)}
    (h : ContentsStep a M M') :
    pitchCount p (M' side) = 0 ∨
      pitchCount p (M' side) + [a].countP (Action.isOff side p) ≤
        pitchCount p (M side) + [a].countP (Action.isOn side p) := by
  have hsame (hon : M' side = M side) (hoff : a.isOff side p = false) :
      pitchCount p (M' side) + [a].countP (Action.isOff side p) ≤
        pitchCount p (M side) + [a].countP (Action.isOn side p) := by
    rw [hon, List.countP_singleton, hoff]
    simp
  cases a with
  | ignored => exact Or.inr (hsame (congrFun h side) rfl)
  | noteOn σ note t tick =>
    right
    obtain ⟨hother, hadd⟩ := h
    rcases Side.eq_or_eq_other σ side with rfl | rfl
    · split at hadd
      · rw [hadd, pitchCount_cons]
        simp [Action.isOn, Action.isOff, List.countP_singleton]
      · exact hsame hadd rfl
    · exact hsame hother rfl
  | noteOff σ note t =>
    obtain ⟨hother, htake⟩ := h
    rcases Side.eq_or_eq_other σ side with rfl | rfl
    · rcases htake with ⟨x, -, rfl, hM⟩ | ⟨hnone, hM⟩
      · right
        rw [hM, pitchCount_cons]
        simp [Action.isOn, Action.isOff, List.countP_singleton]
      · rcases eq_or_ne note p with rfl | hp
        · left
          rw [hM]
          exact Multiset.countP_eq_zero.mpr hnone
        · exact Or.inr (hsame hM (by simp [Action.isOff, hp]))
    · exact Or.inr (hsame hother (by simp [Action.isOff]))

/-- At any point of a run the entries of a pitch are at most the excess of
note-ons over note-offs in some final stretch. -/
theorem count_le_excess (side : Side) (p : ℤ) {as : List Action}
    {M : Side → Multiset (ℤ × ℤ × ℤ)} (h : ContentsRun as M) :
    ∃ k ≤ as.length, pitchCount p (M side) + (as.drop k).countP (Action.isOff side p) ≤
      (as.drop k).countP (Action.isOn side p) := by
  induction h with
  | nil => exact ⟨0, le_rfl, by simp [pitchCount]⟩
  | @snoc as a M M' _ hstep ih =>
    obtain ⟨k, hk, hle⟩ := ih
    rcases pitchCount_step side p hstep with hzero | hcount
    · -- none is left: the empty stretch will do
      exact ⟨(as ++ [a]).length, le_rfl, by simp [hzero]⟩
    · refine ⟨k, by simp; omega, ?_⟩
      rw [List.drop_append_of_le_length hk, List.countP_append, List.countP_append]
      omega

/-- Positions of the note-ons of pitch `p` from `k` on. -/
theorem mem_positions {q : Action → Bool} {as : List Action} {k i : ℕ} :
    i ∈ (as.drop k).findIdxs q k ↔ k ≤ i ∧ ∃ a, as[i]? = some a ∧ q a = true := by
  rw [List.mem_findIdxs_iff_getElem_sub_pos]
  constructor
  · rintro ⟨hki, hlt, hq⟩
    have hi : i < as.length := by
      rw [List.length_drop] at hlt
      omega
    refine ⟨hki, as[i], List.getElem?_eq_getElem hi, ?_⟩
    simpa [show k + (i - k) = i by omega] using hq
  · rintro ⟨hki, a, ha, hq⟩
    obtain ⟨hlt, rfl⟩ := List.getElem?_eq_some_iff.mp ha
    refine ⟨hki, by simp; omega, ?_⟩
    simpa [show k + (i - k) = i by omega] using hq

theorem Action.isOn_iff {side : Side} {p : ℤ} {a : Action} :
    a.isOn side p = true ↔ ∃ t k, a = .noteOn side p t k := by
  cases a <;> simp [Action.isOn]

theorem Action.isOff_iff {side : Side} {p : ℤ} {a : Action} :
    a.isOff side p = true ↔ ∃ t, a = .noteOff side p t := by
  cases a <;> simp [Action.isOff]

theorem Matched.excess_le_zero {side : Side} {as : List Action} (h : Matched side as) (p : ℤ)
    (k : ℕ) :
    (as.drop k).countP (Action.isOn side p) ≤ (as.drop k).countP (Action.isOff side p) := by
  obtain ⟨f, hf, hinj⟩ := h
  have hnodup : (((as.drop k).findIdxs (Action.isOn side p) k).map f).Nodup := by
    refine List.Nodup.map_on ?_ List.nodup_findIdxs
    intro i hi j hj hij
    obtain ⟨-, a, ha, hon⟩ := mem_positions.mp hi
    obtain ⟨-, b, hb, hon'⟩ := mem_positions.mp hj
    obtain ⟨t, u, rfl⟩ := Action.isOn_iff.mp hon
    obtain ⟨t', u', rfl⟩ := Action.isOn_iff.mp hon'
    exact hinj i j p p t t' u u' ha hb hij
  have hsub : ((as.drop k).findIdxs (Action.isOn side p) k).map f ⊆
      (as.drop k).findIdxs (Action.isOff side p) k := by
    intro j hj
    obtain ⟨i, hi, rfl⟩ := List.mem_map.mp hj
    obtain ⟨hki, a, ha, hon⟩ := mem_positions.mp hi
    obtain ⟨t, u, rfl⟩ := Action.isOn_iff.mp hon
    obtain ⟨hlt, t', hoff⟩ := hf i p t u ha
    exact mem_positions.mpr ⟨by omega, _, hoff, Action.isOff_iff.mpr ⟨t', rfl⟩⟩
  have hle := (hnodup.subperm hsub).length_le
  rwa [List.length_map, List.length_findIdxs, List.length_findIdxs] at hle

theorem contents_eq_zero {side : Side} {as : List Action} {M : Side → Multiset (ℤ × ℤ × ℤ)}
    (h : ContentsRun as M) (hm : Matched side as) : M side = 0 := by
  have hcount (p : ℤ) : pitchCount p (M side) = 0 := by
    obtain ⟨k, -, hk⟩ := count_le_excess side p h
    have hle := hm.excess_le_zero p k
    omega
  refine Multiset.eq_zero_of_forall_notMem fun x hx => ?_
  exact Multiset.countP_eq_zero.mp (hcount x.1) x hx rfl

/-! ### The program -/

/-- The contents of the two tables of a state. -/
def State.contents (s : State) (σ : Side) : Multiset (ℤ × ℤ × ℤ) :=
  MidiTraining.contents (s.tables.get σ)

/-- A pass leaves the triples of a side alone unless it came through the port
of that side. -/
theorem tablesPass_frame {cfg : Config} {c₁ c₂ : ℤ} {s s' : Tables} {p : Pass} {o : Output}
    (h : tablesPass cfg c₁ c₂ s p = .ok (s', o)) {σ : Side} (hport : p.ev.port ≠ σ.port) :
    triples (s'.get σ) = triples (s.get σ) := by
  rcases tablesPass_cases h with ⟨side, note, t, k, tick, ha, rfl, -⟩ |
    ⟨side, note, t, tick, sent, ha, rfl, -, -⟩ | ⟨-, hs, -⟩
  · rcases Side.eq_or_eq_other side σ with rfl | rfl
    · exact absurd (Pass.of_noteOn ha).1 hport
    · rw [Tables.get_put_other]
      exact triples_noteOn_ref _ _ _ _ _
  · rcases Side.eq_or_eq_other side σ with rfl | rfl
    · exact absurd (Pass.of_noteOff ha).1 hport
    · rw [Tables.get_put_other]
      exact triples_noteOff_ref _ _ _ _ _ _
  · rw [hs σ]

/-- **The tables hold exactly the sounding notes, and drain.**  The contents
of the two tables are those of a reference run; a pass through one port
leaves the other table its length and its triples, in place; and if each
note-on of the instrument has its own later note-off, `track_inst` is empty
at the end. -/
theorem tables_hold_sounding_notes (cfg : Config) (c₁ c₂ : ℤ) (ps : List Pass) :
    (cfg.maxBadness ≠ 0 → ∃ s outs, run (midiEventPass cfg) (initial c₁ c₂) ps = .ok (s, outs)) ∧
      ∀ s outs, run (midiEventPass cfg) (initial c₁ c₂) ps = .ok (s, outs) →
        ContentsRun (actions c₁ c₂ ps) s.contents ∧
        (∀ p s' o, midiEventPass cfg s p = .ok (s', o) →
          (p.ev.port ≠ 0 → s'.track1.length = s.track1.length ∧
            triples s'.track1.entries = triples s.track1.entries) ∧
          (p.ev.port ≠ 1 → s'.track2.length = s.track2.length ∧
            triples s'.track2.entries = triples s.track2.entries)) ∧
        (Matched .inst (actions c₁ c₂ ps) → s.track2.length = 0) := by
  refine ⟨fun hbad => run_ok hbad ps, ?_⟩
  intro s outs h
  obtain ⟨hrun, hwf⟩ := run_tables h
  refine ⟨run_contents hrun, ?_, ?_⟩
  · intro p s' o hp
    obtain ⟨ht, hwf'⟩ := pass_tables h hp
    have hlen {a b : MIDItrack} (ha : a.InRange) (hb : b.InRange)
        (heq : triples b.entries = triples a.entries) : b.length = a.length := by
      rw [(Holds.of_inRange ha).length, (Holds.of_inRange hb).length, ← length_triples b.entries,
        heq, length_triples]
    constructor
    · intro hport
      have heq := tablesPass_frame ht (σ := .score) hport
      exact ⟨hlen hwf.range1 hwf'.range1 heq, heq⟩
    · intro hport
      have heq := tablesPass_frame ht (σ := .inst) hport
      exact ⟨hlen hwf.range2 hwf'.range2 heq, heq⟩
  · intro hm
    have hzero : contents s.track2.entries = 0 := contents_eq_zero (run_contents hrun) hm
    rw [(Holds.of_inRange hwf.range2).length, ← card_contents, hzero]
    rfl

end MidiTraining
