/-
MidiTraining/Grading.lean

The grading law.

The reference of `MidiTraining.Book` says which notes are partners and when
they end; the law (`GradingLaw`) says what must be sent then: for a pair, at
the later of its two note-offs, the colour of the weighted delay of its four
times; for a note of the score without partner, red at its note-off; and
nothing else.

The tables follow the reference (`Follows`) as long as every result that is
deferred reaches a live note of its pitch (`Lands`): each entry is the
sounding note of its pitch, it is linked if that note has a partner, and it
holds the data of the partner once that one has ended.  Positions do not
occur in this relation, so it does not matter where the removals move the
entries.
-/
import MidiTraining.Book

namespace MidiTraining

open SwapRemove FaultMachine

/-! ### The tables follow the reference -/

/-- The entry `e` of side `σ` is the note `i` of the reference. -/
structure Tracks (as : List Action) (B : Book) (σ : Side) (e : Entry) (i : ℕ) : Prop where
  sounding : B.sounding σ e.note = some i
  struck : as[i]? = some (.noteOn σ e.note e.start e.tick)
  lone : B.partner i = none → e.link = -1 ∧ ¬ e.lend > -1
  waiting : ∀ i', B.partner i = some i' → B.ended i' = none → e.Waiting
  answered : ∀ i' j t, B.partner i = some i' → B.ended i' = some (j, t) →
    e.Answered ∧ e.lend = t ∧ as[i']? = some (.noteOn σ.other e.note e.lstart e.ltick)

/-- Every entry is the sounding note of its pitch. -/
def Follows (as : List Action) (B : Book) (t : Tables) : Prop :=
  ∀ σ, ∀ e ∈ t.get σ, ∃ i, Tracks as B σ e i

/-- A note that defers its result finds a live note of its pitch through its
link. -/
def Lands (t : Tables) : Action → Prop
  | .noteOff σ p _ => ∀ x ∈ firstAt (Entry.hasNote p) (t.get σ), x.2.Waiting →
      ∃ r ∈ (t.get σ.other)[x.2.link.toNat]?, r.note = p
  | _ => True

instance (t : Tables) : (a : Action) → Decidable (Lands t a)
  | .noteOff σ p _ => inferInstanceAs (Decidable (∀ x ∈ firstAt (Entry.hasNote p) (t.get σ),
      x.2.Waiting → ∃ r ∈ (t.get σ.other)[x.2.link.toNat]?, r.note = p))
  | .noteOn .. => isTrue trivial
  | .ignored => isTrue trivial

namespace Tracks

variable {as : List Action} {B B' : Book} {σ : Side} {e : Entry} {i : ℕ}

theorem struckNote (h : Tracks as B σ e i) : StruckNote as i σ e.note := ⟨_, _, h.struck⟩

theorem link_of_partner (h : Tracks as B σ e i) {i' : ℕ} (hp : B.partner i = some i') :
    e.link > -1 := by
  rcases hend : B.ended i' with - | ⟨j, t⟩
  · exact (h.waiting i' hp hend).1
  · exact (h.answered i' j t hp hend).1.1

/-- The partner of a waiting entry sounds. -/
theorem partner_of_waiting (h : Tracks as B σ e i) (hw : e.Waiting) :
    ∃ i', B.partner i = some i' ∧ B.ended i' = none := by
  rcases hp : B.partner i with - | i'
  · have hlink := (h.lone hp).1
    have := hw.1
    omega
  · refine ⟨i', rfl, ?_⟩
    by_contra hend
    obtain ⟨⟨j, t⟩, hjt⟩ := Option.ne_none_iff_exists'.mp hend
    exact hw.2 (h.answered i' j t hp hjt).1.2

/-- An entry goes on being its note while nothing about that note and the end
of its partner is entered. -/
theorem mono (h : Tracks as B σ e i) (a : Action)
    (hs : B'.sounding σ e.note = B.sounding σ e.note) (hp : B'.partner i = B.partner i)
    (he : ∀ i', B.partner i = some i' → B'.ended i' = B.ended i') :
    Tracks (as ++ [a]) B' σ e i where
  sounding := hs.trans h.sounding
  struck := getElem?_snoc_eq_some.mpr (Or.inl h.struck)
  lone := fun hnone => h.lone (hp.symm.trans hnone)
  waiting := by
    intro i' hi' hend
    have hi := hp.symm.trans hi'
    exact h.waiting i' hi ((he i' hi).symm.trans hend)
  answered := by
    intro i' j t hi' hend
    have hi := hp.symm.trans hi'
    obtain ⟨hans, hlend, hstruck⟩ := h.answered i' j t hi ((he i' hi).symm.trans hend)
    exact ⟨hans, hlend, getElem?_snoc_eq_some.mpr (Or.inl hstruck)⟩

end Tracks

section noteOn

variable {as : List Action} {B : Book} {s : Tables} {σ : Side} {p t k : ℤ} {q : ℕ}

/-- The entry of a new note that has a partner. -/
theorem tracks_new (hne : as.length ≠ q) (hqend : B.ended q = none) {l : ℤ} (hl : l > -1) :
    Tracks (as ++ [.noteOn σ p t k]) ((B.sound σ p (some as.length)).pair as.length q) σ
      { Entry.fresh p t k with link := l } as.length where
  sounding := Book.sound_sounding_self _
  struck := by simp [Entry.fresh]
  lone := by
    intro hlone
    rw [Book.pair_partner_left hne] at hlone
    cases hlone
  waiting := fun _ _ _ => ⟨hl, by simp [Entry.fresh]⟩
  answered := by
    intro i' j e hi' hend
    rw [Book.pair_partner_left hne] at hi'
    cases hi'
    rw [Book.pair_ended, Book.sound_ended, hqend] at hend
    cases hend

/-- The entry of its partner, once it is linked. -/
theorem tracks_linked (hsane : B.Sane as) {r : Entry} (hr : Tracks as B σ.other r q)
    (hqp : B.partner q = none) {l : ℤ} (hl : l > -1) :
    Tracks (as ++ [.noteOn σ p t k]) ((B.sound σ p (some as.length)).pair as.length q) σ.other
      { r with link := l } q where
  sounding := by
    rw [Book.pair_sounding, Book.sound_sounding_of_ne (fun hand => Side.other_ne σ hand.1)]
    exact hr.sounding
  struck := getElem?_snoc_eq_some.mpr (Or.inl hr.struck)
  lone := by
    intro hlone
    rw [Book.pair_partner_right] at hlone
    cases hlone
  waiting := fun _ _ _ => ⟨hl, (hr.lone hqp).2⟩
  answered := by
    intro i' j e hi' hend
    rw [Book.pair_partner_right] at hi'
    cases hi'
    exact absurd (hsane.ended_lt _ _ _ hend).1 (lt_irrefl _)

/-- The tables after a note-on, entry by entry. -/
theorem follows_noteOn {as' : List Action} {B' : Book} (hroom : (s.get σ).length < maxLength)
    (hold : ∀ e ∈ s.get σ, ∃ i, Tracks as' B' σ e i)
    (hnew : ∃ i, Tracks as' B' σ
      { Entry.fresh p t k with link := newLink (s.get σ.other) p } i)
    (href : ∀ r ∈ s.get σ.other, ∃ i, Tracks as' B' σ.other (r.linkTo p (s.get σ).length) i)
    (tick : Option ℤ) :
    Follows as' B' (.put σ (noteOn (s.get σ) (s.get σ.other) p t k).1
      (noteOn (s.get σ) (s.get σ.other) p t k).2 tick) := by
  rw [noteOn_of_room hroom]
  apply Tables.mem_put (P := fun τ e => ∃ i, Tracks as' B' τ e i)
  · intro e he
    rcases List.mem_append.mp he with hmem | hmem
    · exact hold e hmem
    · obtain rfl := List.mem_singleton.mp hmem
      exact hnew
  · intro r' hr'
    obtain ⟨r, hr, rfl⟩ := List.mem_map.mp hr'
    exact href r hr

/-- A note-on that finds a candidate: the two notes become partners, and
their entries are linked. -/
theorem follows_noteOn_pair (hsane : B.Sane as) (hs : Follows as B s)
    (hnone : B.sounding σ p = none) (hq : B.candidate σ.other p = some q)
    (hin : ∃ r ∈ s.get σ.other, r.note = p) (hroom : (s.get σ).length < maxLength)
    (tick : Option ℤ) :
    Follows (as ++ [.noteOn σ p t k]) ((B.sound σ p (some as.length)).pair as.length q)
      (.put σ (noteOn (s.get σ) (s.get σ.other) p t k).1
        (noteOn (s.get σ) (s.get σ.other) p t k).2 tick) := by
  obtain ⟨hsq, hqp⟩ := Book.candidate_eq_some_iff.mp hq
  obtain ⟨hqstruck, hqend⟩ := hsane.struck _ _ _ hsq
  have hqlt := hqstruck.lt
  have hne : as.length ≠ q := hqlt.ne'
  -- an entry that is neither of the two goes on being its note
  have hkeep {τ : Side} {e : Entry} {i : ℕ} (he : Tracks as B τ e i)
      (hpitch : ¬ (τ = σ ∧ e.note = p)) (hiq : i ≠ q) :
      Tracks (as ++ [.noteOn σ p t k]) ((B.sound σ p (some as.length)).pair as.length q) τ e i := by
    refine he.mono _ ?_ ?_ (fun _ _ => rfl)
    · rw [Book.pair_sounding, Book.sound_sounding_of_ne hpitch]
    · exact Book.pair_partner_of_ne he.struckNote.lt.ne hiq
  refine follows_noteOn hroom ?_ ?_ ?_ tick
  · intro e he
    obtain ⟨i, hi⟩ := hs σ e he
    refine ⟨i, hkeep hi ?_ (hi.struckNote.ne_of_other hqstruck)⟩
    rintro ⟨-, rfl⟩
    rw [hi.sounding] at hnone
    cases hnone
  · have hlink : newLink (s.get σ.other) p ≠ -1 := by
      intro hlink
      obtain ⟨r, hr, hnote⟩ := hin
      obtain ⟨i, hi⟩ := hs _ r hr
      rw [← hnote, hi.sounding] at hsq
      obtain rfl := Option.some_inj.mp hsq
      have hfree := newLink_eq_neg_one_iff.mp hlink r hr
      rw [Entry.free_iff.mpr ⟨(hi.lone hqp).1, hnote⟩] at hfree
      cases hfree
    have hge := newLink_ge (s.get σ.other) p
    exact ⟨as.length, tracks_new hne hqend (by omega)⟩
  · intro r hr
    obtain ⟨i, hi⟩ := hs _ r hr
    by_cases hnote : r.note = p
    · -- the candidate's entry is free
      have hiq : i = q := by
        rw [← hnote, hi.sounding] at hsq
        exact Option.some_inj.mp hsq
      subst hiq
      rw [Entry.linkTo_of_free (Entry.free_iff.mpr ⟨(hi.lone hqp).1, hnote⟩)]
      exact ⟨i, tracks_linked hsane hi hqp (by omega)⟩
    · rw [Entry.linkTo_of_note_ne hnote]
      refine ⟨i, hkeep hi (fun hand => Side.other_ne σ hand.1) ?_⟩
      rintro rfl
      exact hnote (hi.struckNote.unique hqstruck).2

/-- A note-on that finds no candidate: no entry is free. -/
theorem follows_noteOn_lone (hsane : B.Sane as) (hs : Follows as B s)
    (hnone : B.sounding σ p = none) (hq : B.candidate σ.other p = none)
    (hroom : (s.get σ).length < maxLength) (tick : Option ℤ) :
    Follows (as ++ [.noteOn σ p t k]) (B.sound σ p (some as.length))
      (.put σ (noteOn (s.get σ) (s.get σ.other) p t k).1
        (noteOn (s.get σ) (s.get σ.other) p t k).2 tick) := by
  have hfree : ∀ r ∈ s.get σ.other, r.free p = false := by
    intro r hr
    by_contra hfree
    rw [Bool.not_eq_false] at hfree
    obtain ⟨hlink, rfl⟩ := Entry.free_iff.mp hfree
    obtain ⟨i, hi⟩ := hs _ r hr
    obtain ⟨i', hi'⟩ := Option.ne_none_iff_exists'.mp
      (Book.candidate_eq_none_iff.mp hq i hi.sounding)
    have := hi.link_of_partner hi'
    omega
  have hkeep {τ : Side} {e : Entry} {i : ℕ} (he : Tracks as B τ e i)
      (hpitch : ¬ (τ = σ ∧ e.note = p)) :
      Tracks (as ++ [.noteOn σ p t k]) (B.sound σ p (some as.length)) τ e i :=
    he.mono _ (Book.sound_sounding_of_ne hpitch _) rfl (fun _ _ => rfl)
  refine follows_noteOn hroom ?_ ?_ ?_ tick
  · intro e he
    obtain ⟨i, hi⟩ := hs σ e he
    refine ⟨i, hkeep hi ?_⟩
    rintro ⟨-, rfl⟩
    rw [hi.sounding] at hnone
    cases hnone
  · have hlone : (B.sound σ p (some as.length)).partner as.length = none := hsane.partner_length
    refine ⟨as.length, ?_, by simp [Entry.fresh], ?_, ?_, ?_⟩
    · exact Book.sound_sounding_self _
    · intro _
      exact ⟨newLink_eq_neg_one_iff.mpr hfree, by simp [Entry.fresh]⟩
    · intro i' hi' _
      rw [hlone] at hi'
      cases hi'
    · intro i' j e hi' _
      rw [hlone] at hi'
      cases hi'
  · intro r hr
    rw [Entry.linkTo_of_not_free (hfree r hr)]
    obtain ⟨i, hi⟩ := hs _ r hr
    exact ⟨i, hkeep hi fun hand => Side.other_ne σ hand.1⟩

end noteOn

section noteOff

variable {cfg : Config} {as : List Action} {B : Book} {s : Tables} {σ : Side} {p t : ℤ} {n i₀ : ℕ}
  {e : Entry}

/-- The entry of the partner, once it has received the data of the note that
ends. -/
theorem tracks_received (hsane : B.Sane as) (he : Tracks as B σ e i₀) (hw : e.Waiting) {r : Entry}
    {i : ℕ} (hr : Tracks as B σ.other r i) (hnote : r.note = e.note) (ht : 0 ≤ t) :
    Tracks (as ++ [.noteOff σ p t]) ((B.sound σ p none).finish i₀ as.length t) σ.other
      (e.receive t r) i := by
  have hback : B.partner i = some i₀ := by
    obtain ⟨i', hi', hend⟩ := he.partner_of_waiting hw
    have hsound := hsane.alive _ _ _ (hsane.partner_struck hi' he.struckNote) hend
    rw [← hnote, hr.sounding] at hsound
    obtain rfl := Option.some_inj.mp hsound
    exact hsane.symm _ _ hi'
  refine ⟨?_, getElem?_snoc_eq_some.mpr (Or.inl hr.struck), ?_, ?_, ?_⟩
  · show (B.sound σ p none).sounding σ.other r.note = some i
    rw [Book.sound_sounding_of_ne (fun hand => Side.other_ne σ hand.1)]
    exact hr.sounding
  · intro hlone
    rw [Book.finish_partner, Book.sound_partner, hback] at hlone
    cases hlone
  · intro x hx hend
    rw [Book.finish_partner, Book.sound_partner, hback] at hx
    cases hx
    rw [Book.finish_ended_self] at hend
    cases hend
  · intro x j t' hx hend
    rw [Book.finish_partner, Book.sound_partner, hback] at hx
    cases hx
    rw [Book.finish_ended_self] at hend
    cases hend
    refine ⟨⟨hr.link_of_partner hback, ?_⟩, rfl, ?_⟩
    · show t > -1
      omega
    · rw [Side.other_other]
      refine getElem?_snoc_eq_some.mpr (Or.inl ?_)
      show as[i₀]? = some (.noteOn σ r.note e.start e.tick)
      rw [hnote]
      exact he.struck

/-- **A note-off ends its note**, and a result that is deferred reaches the
entry of the partner. -/
theorem follows_noteOff (hsane : B.Sane as) (hs : Follows as B s)
    (hdistinct : ∀ σ, ((s.get σ).map Entry.note).Nodup)
    (hfind : firstAt (Entry.hasNote p) (s.get σ) = some (n, e)) (he : Tracks as B σ e i₀)
    (hlands : Lands s (.noteOff σ p t)) (ht : 0 ≤ t) (tick : Option ℤ) :
    Follows (as ++ [.noteOff σ p t]) ((B.sound σ p none).finish i₀ as.length t)
      (.put σ (noteOff cfg (s.get σ) (s.get σ.other) p t σ.isInst).track
        (noteOff cfg (s.get σ) (s.get σ.other) p t σ.isInst).ref tick) := by
  have hnote := Entry.hasNote_iff.mp (firstAt_test hfind)
  have hstruck₀ := he.struckNote
  -- an entry of another pitch, or whose partner is another note, stays its note
  have hkeep {τ : Side} {x : Entry} {i : ℕ} (hx : Tracks as B τ x i)
      (hpitch : ¬ (τ = σ ∧ x.note = p)) (hother : B.partner i ≠ some i₀) :
      Tracks (as ++ [.noteOff σ p t]) ((B.sound σ p none).finish i₀ as.length t) τ x i := by
    refine hx.mono _ ?_ rfl ?_
    · rw [Book.finish_sounding, Book.sound_sounding_of_ne hpitch]
    · intro i' hi'
      rw [Book.finish_ended_of_ne, Book.sound_ended]
      rintro rfl
      exact hother hi'
  intro τ
  rcases Side.eq_or_eq_other σ τ with rfl | rfl
  · rw [Tables.get_put, noteOff_track cfg _ t _ hfind]
    intro x hx
    have hpitch := key_ne_of_mem_swapRemove (hdistinct τ) (firstAt_getElem? hfind) hx
    obtain ⟨i, hi⟩ := hs τ x (mem_of_mem_swapRemove (firstAt_getElem? hfind) hx)
    refine ⟨i, hkeep hi (fun hand => hpitch (hand.2.trans hnote.symm)) ?_⟩
    intro hpartner
    exact hstruck₀.ne_of_other (hsane.partner_struck hpartner hi.struckNote) rfl
  · rw [Tables.get_put_other]
    by_cases hw : e.Waiting
    · obtain ⟨r, hr, hrnote⟩ := hlands (n, e) hfind hw
      rw [noteOff_ref_of_waiting cfg _ t _ hfind hw]
      intro r' hr'
      rcases mem_modify_of_distinct (hdistinct σ.other) hr hr' with rfl | ⟨hmem, hpitch⟩
      · -- the entry that is written to is the partner
        obtain ⟨i, hi⟩ := hs _ r (List.mem_of_getElem? hr)
        exact ⟨i, tracks_received hsane he hw hi (hrnote.trans hnote.symm) ht⟩
      · obtain ⟨i, hi⟩ := hs _ r' hmem
        refine ⟨i, hkeep hi (fun hand => Side.other_ne σ hand.1) ?_⟩
        intro hpartner
        have hsame := ((hsane.partner_struck hpartner hi.struckNote).unique hstruck₀).2
        exact hpitch (hsame.trans (hnote.trans hrnote.symm))
    · rw [noteOff_ref_of_not_waiting cfg _ t _ hfind hw]
      intro x hx
      obtain ⟨i, hi⟩ := hs _ x hx
      refine ⟨i, hkeep hi (fun hand => Side.other_ne σ hand.1) ?_⟩
      intro hpartner
      -- a note whose partner still sounds waits
      exact hw (he.waiting i (hsane.symm _ _ hpartner) (hsane.struck _ _ _ hi.sounding).2)

end noteOff

/-! ### The messages of a note-off -/

/-- The weighted delay of a pair, by the starts and the ends of the note of
the score and of the note of the instrument. -/
def pairDelay (cfg : Config) (sS sI eS eI : ℤ) : ℤ :=
  cfg.weightStart * |sS - sI| +
    if eI > eS then cfg.weightEndp * (eI - eS) else cfg.weightEndn * (eS - eI)

/-- The score computes it when it ends last. -/
theorem weightedDelay_score (cfg : Config) (sS sI eS eI : ℤ) :
    weightedDelay cfg Side.score.isInst eS sS sI eI = pairDelay cfg sS sI eS eI := by
  show _ + (if -1 * (eS - eI) > 0 then _ else _) = _
  rw [pairDelay]
  by_cases h : eI > eS
  · have habs : |eS - eI| = eI - eS := by
      rw [abs_sub_comm]
      exact abs_of_pos (by omega)
    rw [if_pos h, if_pos (by omega), habs]
  · have habs : |eS - eI| = eS - eI := abs_of_nonneg (by omega)
    rw [if_neg h, if_neg (by omega), habs]

/-- The instrument computes it when it ends last. -/
theorem weightedDelay_inst (cfg : Config) (sS sI eS eI : ℤ) :
    weightedDelay cfg Side.inst.isInst eI sI sS eS = pairDelay cfg sS sI eS eI := by
  show _ * |sI - sS| + (if 1 * (eI - eS) > 0 then _ else _) = _
  rw [pairDelay, abs_sub_comm sI sS]
  by_cases h : eI > eS
  · have habs : |eI - eS| = eI - eS := abs_of_pos (by omega)
    rw [if_pos h, if_pos (by omega), habs]
  · have habs : |eI - eS| = eS - eI := by
      rw [abs_sub_comm]
      exact abs_of_nonneg (by omega)
    rw [if_neg h, if_neg (by omega), habs]

/-- Weights that are not negative. -/
structure Config.NonnegWeights (cfg : Config) : Prop where
  start : 0 ≤ cfg.weightStart
  endp : 0 ≤ cfg.weightEndp
  endn : 0 ≤ cfg.weightEndn

theorem pairDelay_nonneg {cfg : Config} (h : cfg.NonnegWeights) (sS sI eS eI : ℤ) :
    0 ≤ pairDelay cfg sS sI eS eI := by
  have hstart : 0 ≤ cfg.weightStart * |sS - sI| := mul_nonneg h.start (abs_nonneg _)
  rw [pairDelay]
  split
  · have : 0 ≤ cfg.weightEndp * (eI - eS) := mul_nonneg h.endp (by omega)
    omega
  · have : 0 ≤ cfg.weightEndn * (eS - eI) := mul_nonneg h.endn (by omega)
    omega

theorem Side.clamp_of_nonneg (cfg : Config) (side : Side) {badness : ℤ} (h : 0 ≤ badness) :
    side.clamp cfg badness = min cfg.maxBadness badness := by
  cases side with
  | score =>
    rw [Side.clamp]
    split <;> omega
  | inst =>
    rw [Side.clamp]
    split <;> omega

/-- A graded pair is sent with the colour of its clamped delay. -/
theorem sent_of_graded {cfg : Config} {side : Side} {badness note : ℤ} {tick : Option ℤ}
    {sent : List Message} (h : sendMessage cfg side badness tick note = .ok sent)
    (hb : 0 ≤ badness) :
    ∃ color, getcolor cfg (min cfg.maxBadness badness) = .ok color ∧
      sent = [⟨tick, note, color⟩] := by
  rcases sendMessage_cases h with ⟨-, color, hcolor, rfl⟩ | ⟨hnot, -⟩
  · rw [side.clamp_of_nonneg cfg hb] at hcolor
    exact ⟨color, hcolor, rfl⟩
  · exact absurd (side.sends_of_nonneg hb) hnot

theorem getcolor_maxBadness {cfg : Config} (h : 0 < cfg.maxBadness) :
    getcolor cfg cfg.maxBadness = .ok .red := by
  rw [getcolor_of_ne_zero h.ne', Int.mul_tdiv_cancel _ h.ne']
  rfl

/-- A note of the score without partner is sent in red; the instrument sends
nothing for one. -/
theorem sent_of_lone {cfg : Config} (hbad : 0 < cfg.maxBadness) {side : Side} {note : ℤ}
    {tick : Option ℤ} {sent : List Message} (h : sendMessage cfg side (-1) tick note = .ok sent) :
    sent = if side = .score then [⟨tick, note, .red⟩] else [] := by
  rcases sendMessage_cases h with ⟨hsends, color, hcolor, rfl⟩ | ⟨hnot, rfl⟩
  · cases side with
    | score =>
      rw [show Side.score.clamp cfg (-1) = cfg.maxBadness from rfl,
        getcolor_maxBadness hbad] at hcolor
      cases hcolor
      rfl
    | inst => exact absurd hsends Side.not_inst_sends_neg_one
  · cases side with
    | score => exact absurd Side.score_sends_neg_one hnot
    | inst => rfl

/-! ### The law -/

/-- The messages sent at a position of the run. -/
def sentAt (outs : List Output) (j : ℕ) : List Message := (outs[j]?.map Output.sent).getD []

theorem sentAt_snoc_of_lt {outs : List Output} {j : ℕ} (h : j < outs.length) (o : Output) :
    sentAt (outs ++ [o]) j = sentAt outs j := by
  rw [sentAt, sentAt, List.getElem?_append_left h]

@[simp] theorem sentAt_snoc_length (outs : List Output) (o : Output) :
    sentAt (outs ++ [o]) outs.length = o.sent := by
  simp [sentAt]

/-- The message for the note `i` of the score is due at position `j`: at its
note-off if it has no partner, at the later of the two note-offs otherwise. -/
def Due (B : Book) (i j : ℕ) : Prop :=
  (B.partner i = none ∧ ∃ t, B.ended i = some (j, t)) ∨
    ∃ i' j₁ j₂ t₁ t₂, B.partner i = some i' ∧ B.ended i = some (j₁, t₁) ∧
      B.ended i' = some (j₂, t₂) ∧ j = max j₁ j₂

/-- What is sent, by the reference. -/
structure GradingLaw (cfg : Config) (as : List Action) (B : Book) (outs : List Output) : Prop where
  /-- The two notes of a pair have ended: the later note-off sends the colour
  of the weighted delay, clamped to `MAX_BADNESS`. -/
  pair : ∀ i i' p sS sI k k' j j' eS eI, as[i]? = some (.noteOn .score p sS k) →
    as[i']? = some (.noteOn .inst p sI k') → B.partner i = some i' →
    B.ended i = some (j, eS) → B.ended i' = some (j', eI) →
    ∃ color, getcolor cfg (min cfg.maxBadness (pairDelay cfg sS sI eS eI)) = .ok color ∧
      sentAt outs (max j j') = [⟨some k, p, color⟩]
  /-- A note of the score without partner has ended: its note-off sends red. -/
  lone : ∀ i p s k j t, as[i]? = some (.noteOn .score p s k) → B.partner i = none →
    B.ended i = some (j, t) → sentAt outs j = [⟨some k, p, .red⟩]
  /-- Nothing else is sent. -/
  rest : ∀ j, sentAt outs j ≠ [] → ∃ i p, StruckNote as i .score p ∧ Due B i j

theorem sentAt_snoc {outs : List Output} {o : Output} {j : ℕ} (h : sentAt (outs ++ [o]) j ≠ []) :
    j < outs.length ∨ (j = outs.length ∧ o.sent ≠ []) := by
  rcases Nat.lt_trichotomy j outs.length with hj | rfl | hj
  · exact Or.inl hj
  · rw [sentAt_snoc_length] at h
    exact Or.inr ⟨rfl, h⟩
  · rw [sentAt, List.getElem?_eq_none (by simp; omega)] at h
    exact absurd rfl h

section law

variable {cfg : Config} {as : List Action} {B B' : Book} {outs : List Output}

/-- Note-ons of ended notes lie in the past. -/
theorem Book.Sane.struck_of_ended (hsane : B.Sane as) {i j : ℕ} {t : ℤ}
    (h : B.ended i = some (j, t)) {a b : Action} (hi : (as ++ [a])[i]? = some b) :
    as[i]? = some b := by
  rwa [List.getElem?_append_left (hsane.ended_lt i j t h).1] at hi

/-- Nothing ends and nothing is sent. -/
theorem law_enter (hsane : B.Sane as) (hlen : outs.length = as.length)
    (h : GradingLaw cfg as B outs) (hend : B'.ended = B.ended)
    (hpartner : ∀ i, B.ended i ≠ none → B'.partner i = B.partner i) (a : Action) {o : Output}
    (ho : o.sent = []) : GradingLaw cfg (as ++ [a]) B' (outs ++ [o]) where
  pair := by
    intro i i' p sS sI k k' j j' eS eI hi hi' hp hj hj'
    rw [hend] at hj hj'
    rw [hpartner i (by simp [hj])] at hp
    obtain ⟨color, hcolor, hsent⟩ := h.pair i i' p sS sI k k' j j' eS eI
      (hsane.struck_of_ended hj hi) (hsane.struck_of_ended hj' hi') hp hj hj'
    have hlt := (hsane.ended_lt _ _ _ hj).2
    have hlt' := (hsane.ended_lt _ _ _ hj').2
    refine ⟨color, hcolor, ?_⟩
    rw [sentAt_snoc_of_lt (by omega), hsent]
  lone := by
    intro i p s k j t hi hp hj
    rw [hend] at hj
    rw [hpartner i (by simp [hj])] at hp
    have hlt := (hsane.ended_lt _ _ _ hj).2
    rw [sentAt_snoc_of_lt (by omega)]
    exact h.lone i p s k j t (hsane.struck_of_ended hj hi) hp hj
  rest := by
    intro j hj
    rcases sentAt_snoc hj with hlt | ⟨-, hsent⟩
    · rw [sentAt_snoc_of_lt hlt] at hj
      obtain ⟨i, p, hstruck, hdue⟩ := h.rest j hj
      refine ⟨i, p, hstruck.snoc a, ?_⟩
      rcases hdue with ⟨hp, t, ht⟩ | ⟨i', j₁, j₂, t₁, t₂, hp, h1, h2, hmax⟩
      · exact Or.inl ⟨by rw [hpartner i (by simp [ht]), hp], t, by rw [hend, ht]⟩
      · exact Or.inr ⟨i', j₁, j₂, t₁, t₂, by rw [hpartner i (by simp [h1]), hp], by rw [hend, h1],
          by rw [hend, h2], hmax⟩
    · exact absurd ho hsent

section ends

variable {σ : Side} {p t : ℤ} {i₀ : ℕ} {o : Output}

/-- After the note `i₀` has ended, an ended note was struck before, and is `i₀`
or had ended before. -/
theorem Book.Sane.ended_of_finish (hsane : B.Sane as) (hi₀ : B.sounding σ p = some i₀)
    (hB' : B' = (B.sound σ p none).finish i₀ as.length t) {i j : ℕ} {e : ℤ}
    (hj : B'.ended i = some (j, e)) :
    i < as.length ∧ ((i = i₀ ∧ j = as.length) ∨ (B.ended i = some (j, e) ∧ j < as.length)) := by
  by_cases hi : i = i₀
  · subst hi
    rw [hB', Book.finish_ended_self] at hj
    cases hj
    exact ⟨(hsane.struck _ _ _ hi₀).1.lt, Or.inl ⟨rfl, rfl⟩⟩
  · rw [hB', Book.finish_ended_of_ne hi, Book.sound_ended] at hj
    obtain ⟨hlt, hlt'⟩ := hsane.ended_lt _ _ _ hj
    exact ⟨hlt, Or.inr ⟨hj, hlt'⟩⟩

/-- The end of `i₀` leaves the ends of the other notes. -/
theorem Book.Sane.finish_of_ended (hsane : B.Sane as) (hi₀ : B.sounding σ p = some i₀)
    (hB' : B' = (B.sound σ p none).finish i₀ as.length t) {i j : ℕ} {e : ℤ}
    (hj : B.ended i = some (j, e)) : B'.ended i = some (j, e) := by
  have hi : i ≠ i₀ := by
    rintro rfl
    rw [(hsane.struck _ _ _ hi₀).2] at hj
    cases hj
  rw [hB', Book.finish_ended_of_ne hi, Book.sound_ended, hj]

/-- The pairs that have ended, after the end of `i₀`. -/
theorem law_end_pair (hsane : B.Sane as) (hlen : outs.length = as.length)
    (h : GradingLaw cfg as B outs) (hi₀ : B.sounding σ p = some i₀)
    (hB' : B' = (B.sound σ p none).finish i₀ as.length t) {i i' j j' : ℕ}
    {q sS sI k k' eS eI : ℤ} (hi : as[i]? = some (.noteOn .score q sS k))
    (hi' : as[i']? = some (.noteOn .inst q sI k')) (hp : B.partner i = some i')
    (hj : B'.ended i = some (j, eS)) (hj' : B'.ended i' = some (j', eI))
    (hpair : i = i₀ ∨ i' = i₀ →
      ∃ color, getcolor cfg (min cfg.maxBadness (pairDelay cfg sS sI eS eI)) = .ok color ∧
        o.sent = [⟨some k, q, color⟩]) :
    ∃ color, getcolor cfg (min cfg.maxBadness (pairDelay cfg sS sI eS eI)) = .ok color ∧
      sentAt (outs ++ [o]) (max j j') = [⟨some k, q, color⟩] := by
  obtain ⟨-, hor⟩ := hsane.ended_of_finish hi₀ hB' hj
  obtain ⟨-, hor'⟩ := hsane.ended_of_finish hi₀ hB' hj'
  rcases hor with ⟨rfl, rfl⟩ | ⟨hold, hjlt⟩
  · obtain ⟨color, hcolor, hsent⟩ := hpair (Or.inl rfl)
    have hmax : max as.length j' = outs.length := by
      rcases hor' with ⟨-, rfl⟩ | ⟨-, hj'lt⟩ <;> omega
    exact ⟨color, hcolor, by rw [hmax, sentAt_snoc_length, hsent]⟩
  · rcases hor' with ⟨rfl, rfl⟩ | ⟨hold', hj'lt⟩
    · obtain ⟨color, hcolor, hsent⟩ := hpair (Or.inr rfl)
      have hmax : max j as.length = outs.length := by omega
      exact ⟨color, hcolor, by rw [hmax, sentAt_snoc_length, hsent]⟩
    · obtain ⟨color, hcolor, hsent⟩ := h.pair i i' q sS sI k k' j j' eS eI hi hi' hp hold hold'
      exact ⟨color, hcolor, by rw [sentAt_snoc_of_lt (by omega), hsent]⟩

/-- The notes of the score that ended without partner, after the end of `i₀`. -/
theorem law_end_lone (hsane : B.Sane as) (hlen : outs.length = as.length)
    (h : GradingLaw cfg as B outs) (hi₀ : B.sounding σ p = some i₀)
    (hB' : B' = (B.sound σ p none).finish i₀ as.length t) {i j : ℕ} {q s k e : ℤ}
    (hi : as[i]? = some (.noteOn .score q s k)) (hp : B.partner i = none)
    (hj : B'.ended i = some (j, e)) (hlone : i = i₀ → o.sent = [⟨some k, q, .red⟩]) :
    sentAt (outs ++ [o]) j = [⟨some k, q, .red⟩] := by
  obtain ⟨-, ⟨rfl, rfl⟩ | ⟨hold, hjlt⟩⟩ := hsane.ended_of_finish hi₀ hB' hj
  · rw [← hlen, sentAt_snoc_length]
    exact hlone rfl
  · rw [sentAt_snoc_of_lt (by omega)]
    exact h.lone i q s k j e hi hp hold

/-- What is due stays due. -/
theorem Due.finish (hsane : B.Sane as) (hi₀ : B.sounding σ p = some i₀)
    (hB' : B' = (B.sound σ p none).finish i₀ as.length t) {i j : ℕ} (h : Due B i j) :
    Due B' i j := by
  have hpartner : B'.partner = B.partner := by rw [hB']; rfl
  rcases h with ⟨hp, e, he⟩ | ⟨i', j₁, j₂, t₁, t₂, hp, h1, h2, hmax⟩
  · exact Or.inl ⟨by rw [hpartner, hp], e, hsane.finish_of_ended hi₀ hB' he⟩
  · exact Or.inr ⟨i', j₁, j₂, t₁, t₂, by rw [hpartner, hp], hsane.finish_of_ended hi₀ hB' h1,
      hsane.finish_of_ended hi₀ hB' h2, hmax⟩

/-- The note `i₀` ends, and the law holds of what its note-off sends. -/
theorem law_end (hsane : B.Sane as) (hlen : outs.length = as.length)
    (h : GradingLaw cfg as B outs) (hi₀ : B.sounding σ p = some i₀)
    (hB' : B' = (B.sound σ p none).finish i₀ as.length t)
    (hpair : ∀ i i' p sS sI k k' j j' eS eI, i = i₀ ∨ i' = i₀ →
      as[i]? = some (.noteOn .score p sS k) → as[i']? = some (.noteOn .inst p sI k') →
      B.partner i = some i' → B'.ended i = some (j, eS) → B'.ended i' = some (j', eI) →
      ∃ color, getcolor cfg (min cfg.maxBadness (pairDelay cfg sS sI eS eI)) = .ok color ∧
        o.sent = [⟨some k, p, color⟩])
    (hlone : ∀ p s k, as[i₀]? = some (.noteOn .score p s k) → B.partner i₀ = none →
      o.sent = [⟨some k, p, .red⟩])
    (hrest : o.sent ≠ [] → ∃ i p, StruckNote as i .score p ∧ Due B' i as.length) (a : Action) :
    GradingLaw cfg (as ++ [a]) B' (outs ++ [o]) := by
  have hpartner : B'.partner = B.partner := by rw [hB']; rfl
  refine ⟨?_, ?_, ?_⟩
  · intro i i' q sS sI k k' j j' eS eI hi hi' hp hj hj'
    rw [hpartner] at hp
    rw [List.getElem?_append_left (hsane.ended_of_finish hi₀ hB' hj).1] at hi
    rw [List.getElem?_append_left (hsane.ended_of_finish hi₀ hB' hj').1] at hi'
    exact law_end_pair hsane hlen h hi₀ hB' hi hi' hp hj hj' fun hor =>
      hpair _ _ _ _ _ _ _ _ _ _ _ hor hi hi' hp hj hj'
  · intro i q s k j e hi hp hj
    rw [hpartner] at hp
    rw [List.getElem?_append_left (hsane.ended_of_finish hi₀ hB' hj).1] at hi
    refine law_end_lone hsane hlen h hi₀ hB' hi hp hj ?_
    rintro rfl
    exact hlone q s k hi hp
  · intro j hj
    rcases sentAt_snoc hj with hlt | ⟨rfl, hsent⟩
    · rw [sentAt_snoc_of_lt hlt] at hj
      obtain ⟨i, q, hstruck, hdue⟩ := h.rest j hj
      exact ⟨i, q, hstruck.snoc a, hdue.finish hsane hi₀ hB'⟩
    · obtain ⟨i, q, hstruck, hdue⟩ := hrest hsent
      rw [hlen]
      exact ⟨i, q, hstruck.snoc a, hdue⟩

end ends

end law

section pass

variable {cfg : Config} {as : List Action} {B : Book} {s : Tables} {outs : List Output}

section sent

variable {ref : List Entry} {σ : Side} {e : Entry} {i : ℕ} {note t : ℤ} {tick : Option ℤ}
  {sent : List Message}

theorem Tracks.sent_of_lone (he : Tracks as B σ e i) (hbad : 0 < cfg.maxBadness)
    (hsend : sendMessage cfg σ (gradeEntry cfg ref t σ.isInst e).1 tick note = .ok sent)
    (hp : B.partner i = none) :
    sent = if σ = .score then [⟨tick, note, .red⟩] else [] := by
  have hlink := (he.lone hp).1
  rw [gradeEntry_of_unlinked _ _ _ _ (by omega)] at hsend
  exact MidiTraining.sent_of_lone hbad hsend

/-- Nothing is sent for a note whose partner still sounds. -/
theorem Tracks.sent_of_waiting (he : Tracks as B σ e i)
    (hsend : sendMessage cfg σ (gradeEntry cfg ref t σ.isInst e).1 tick note = .ok sent)
    {i' : ℕ} (hp : B.partner i = some i') (hend : B.ended i' = none) : sent = [] := by
  rw [gradeEntry_of_waiting _ _ _ _ (he.waiting i' hp hend)] at hsend
  rcases sendMessage_cases hsend with ⟨hsends, -⟩ | ⟨-, rfl⟩
  · exact absurd hsends (Side.not_sends_neg_two σ)
  · rfl

theorem Tracks.sent_of_answered (he : Tracks as B σ e i)
    (hsend : sendMessage cfg σ (gradeEntry cfg ref t σ.isInst e).1 tick note = .ok sent)
    {i' j : ℕ} {t' : ℤ} (hp : B.partner i = some i') (hend : B.ended i' = some (j, t'))
    (hnonneg : 0 ≤ weightedDelay cfg σ.isInst t e.start e.lstart t') :
    ∃ color, getcolor cfg (min cfg.maxBadness
      (weightedDelay cfg σ.isInst t e.start e.lstart t')) = .ok color ∧
        sent = [⟨tick, note, color⟩] := by
  obtain ⟨hans, rfl, -⟩ := he.answered i' j t' hp hend
  rw [gradeEntry_of_answered _ _ _ _ hans] at hsend
  exact sent_of_graded hsend hnonneg

/-- The note of the score ends after its partner. -/
theorem Tracks.sent_score_last (he : Tracks as B .score e i) (hw : cfg.NonnegWeights)
    (hsend : sendMessage cfg .score (gradeEntry cfg ref t Side.score.isInst e).1 tick note
      = .ok sent)
    {i' j : ℕ} {q sI k eI : ℤ} (hi' : as[i']? = some (.noteOn .inst q sI k))
    (hp : B.partner i = some i') (hend : B.ended i' = some (j, eI)) :
    ∃ color, getcolor cfg (min cfg.maxBadness (pairDelay cfg e.start sI t eI)) = .ok color ∧
      sent = [⟨tick, note, color⟩] := by
  obtain ⟨-, -, hpartner⟩ := he.answered i' j eI hp hend
  rw [show Side.score.other = .inst from rfl, hi'] at hpartner
  cases hpartner
  have hdelay := weightedDelay_score cfg e.start e.lstart t eI
  have hnonneg := pairDelay_nonneg hw e.start e.lstart t eI
  rw [← hdelay] at hnonneg ⊢
  exact he.sent_of_answered hsend hp hend hnonneg

/-- The note of the instrument ends after its partner. -/
theorem Tracks.sent_inst_last (he : Tracks as B .inst e i) (hw : cfg.NonnegWeights)
    (hsend : sendMessage cfg .inst (gradeEntry cfg ref t Side.inst.isInst e).1 tick note
      = .ok sent)
    {i' j : ℕ} {q sS k eS : ℤ} (hi' : as[i']? = some (.noteOn .score q sS k))
    (hp : B.partner i = some i') (hend : B.ended i' = some (j, eS)) :
    ∃ color, getcolor cfg (min cfg.maxBadness (pairDelay cfg sS e.start eS t)) = .ok color ∧
      sent = [⟨tick, note, color⟩] ∧ e.ltick = k := by
  obtain ⟨-, -, hpartner⟩ := he.answered i' j eS hp hend
  rw [show Side.inst.other = .score from rfl, hi'] at hpartner
  cases hpartner
  have hdelay := weightedDelay_inst cfg e.lstart e.start eS t
  have hnonneg := pairDelay_nonneg hw e.lstart e.start eS t
  rw [← hdelay] at hnonneg ⊢
  obtain ⟨color, hcolor, hsent⟩ := he.sent_of_answered hsend hp hend hnonneg
  exact ⟨color, hcolor, hsent, rfl⟩

/-- A message at the end of a note is due. -/
theorem Tracks.due_of_sent (he : Tracks as B σ e i) (hsane : B.Sane as)
    (hbad : 0 < cfg.maxBadness)
    (hsend : sendMessage cfg σ (gradeEntry cfg ref t σ.isInst e).1 tick note = .ok sent)
    (hsent : sent ≠ []) :
    ∃ x q, StruckNote as x .score q ∧
      Due ((B.sound σ e.note none).finish i as.length t) x as.length := by
  have hself : ((B.sound σ e.note none).finish i as.length t).ended i = some (as.length, t) :=
    Book.finish_ended_self t
  rcases hp : B.partner i with - | i'
  · have hσ : σ = .score := by
      by_contra hσ
      exact hsent ((he.sent_of_lone hbad hsend hp).trans (if_neg hσ))
    subst hσ
    exact ⟨i, _, he.struckNote, Or.inl ⟨hp, t, hself⟩⟩
  · rcases hend : B.ended i' with - | ⟨j', t'⟩
    · exact absurd (he.sent_of_waiting hsend hp hend) hsent
    · have hend' := hsane.finish_of_ended (t := t) he.sounding rfl hend
      have hlt := (hsane.ended_lt _ _ _ hend).2
      cases σ with
      | score =>
        exact ⟨i, _, he.struckNote, Or.inr ⟨i', _, _, _, _, hp, hself, hend', by omega⟩⟩
      | inst =>
        exact ⟨i', _, hsane.partner_struck hp he.struckNote,
          Or.inr ⟨i, _, _, _, _, hsane.symm _ _ hp, hend', hself, by omega⟩⟩

end sent

/-- **The messages of a note-off obey the law.** -/
theorem law_noteOff (hsane : B.Sane as) (hlen : outs.length = as.length)
    (h : GradingLaw cfg as B outs) (hw : cfg.NonnegWeights) (hbad : 0 < cfg.maxBadness)
    {σ : Side} {p t : ℤ} {n i₀ : ℕ} {e : Entry}
    (hfind : firstAt (Entry.hasNote p) (s.get σ) = some (n, e)) (he : Tracks as B σ e i₀)
    {tick : Option ℤ} {sent : List Message}
    (hsend : sendMessage cfg σ (noteOff cfg (s.get σ) (s.get σ.other) p t σ.isInst).badness
      ((noteOff cfg (s.get σ) (s.get σ.other) p t σ.isInst).tick.or tick) p = .ok sent)
    (b w : Option ℤ) :
    GradingLaw cfg (as ++ [.noteOff σ p t]) ((B.sound σ p none).finish i₀ as.length t)
      (outs ++ [⟨b, w, sent⟩]) := by
  obtain rfl := Entry.hasNote_iff.mp (firstAt_test hfind)
  rw [noteOff_badness cfg _ t _ hfind, noteOff_tick cfg _ t _ hfind, Option.some_or] at hsend
  refine law_end hsane hlen h he.sounding rfl ?_ ?_ (he.due_of_sent hsane hbad hsend) _
  · intro i i' q sS sI k k' j j' eS eI hor hi hi' hp hj hj'
    have hne : i ≠ i' := by
      rintro rfl
      rw [hi] at hi'
      cases hi'
    rcases hor with rfl | rfl
    · -- the note of the score ends last
      rw [he.struck] at hi
      cases hi
      rw [Book.finish_ended_self] at hj
      cases hj
      rw [Book.finish_ended_of_ne hne.symm, Book.sound_ended] at hj'
      exact he.sent_score_last hw hsend hi' hp hj'
    · -- the note of the instrument ends last
      rw [he.struck] at hi'
      cases hi'
      rw [Book.finish_ended_self] at hj'
      cases hj'
      rw [Book.finish_ended_of_ne hne, Book.sound_ended] at hj
      obtain ⟨color, hcolor, hsent, rfl⟩ :=
        he.sent_inst_last hw hsend hi (hsane.symm _ _ hp) hj
      exact ⟨color, hcolor, hsent⟩
  · intro q s' k hi hp
    rw [he.struck] at hi
    cases hi
    show sent = _
    rw [he.sent_of_lone hbad hsend hp, if_pos rfl, Side.tickOf_score]

/-- **One pass** keeps the tables following the reference, and the law. -/
theorem grading_pass {c₁ c₂ : ℤ} {s' : Tables} {p : Pass} {o : Output}
    (hstep : tablesPass cfg c₁ c₂ s p = .ok (s', o)) (hw : cfg.NonnegWeights)
    (hbad : 0 < cfg.maxBadness) (hsane : (book as).Sane as)
    (hdistinct : ∀ σ, ((s.get σ).map Entry.note).Nodup)
    (hsounds : ∀ σ q, (book as).sounding σ q ≠ none → ∃ e ∈ s.get σ, e.note = q)
    (hroom : Room s (p.action c₁ c₂)) (hfresh : Fresh s (p.action c₁ c₂))
    (hfound : Found s (p.action c₁ c₂)) (hlands : Lands s (p.action c₁ c₂)) (ht : 0 ≤ p.time)
    (hlen : outs.length = as.length) (hs : Follows as (book as) s)
    (hlaw : GradingLaw cfg as (book as) outs) :
    Follows (as ++ [p.action c₁ c₂]) (book (as ++ [p.action c₁ c₂])) s' ∧
      GradingLaw cfg (as ++ [p.action c₁ c₂]) (book (as ++ [p.action c₁ c₂])) (outs ++ [o]) := by
  rw [book_snoc]
  rcases ha : p.action c₁ c₂ with ⟨σ, q, t, k⟩ | ⟨σ, q, t⟩ | -
  · obtain ⟨rfl, tick, rfl⟩ := tablesPass_of_noteOn hstep ha
    rw [ha] at hroom hfresh
    have hnone : (book as).sounding σ q = none := by
      by_contra hsome
      obtain ⟨e, he, hnote⟩ := hsounds σ q hsome
      exact hfresh e he hnote
    rw [Book.step]
    split
    · rename_i i hi
      obtain ⟨hsi, hpi⟩ := Book.candidate_eq_some_iff.mp hi
      have hin := hsounds σ.other q (by rw [hsi]; simp)
      refine ⟨follows_noteOn_pair hsane hs hnone hi hin hroom tick, ?_⟩
      refine law_enter hsane hlen hlaw ?_ ?_ _ ?_
      · rfl
      swap
      · rfl
      -- an ended note is neither the new one nor the candidate
      intro x hx
      obtain ⟨⟨j, e⟩, hje⟩ := Option.ne_none_iff_exists'.mp hx
      refine Book.pair_partner_of_ne (hsane.ended_lt _ _ _ hje).1.ne ?_
      rintro rfl
      exact hx (hsane.struck _ _ _ hsi).2
    · rename_i hq
      refine ⟨follows_noteOn_lone hsane hs hnone hq hroom tick, ?_⟩
      refine law_enter hsane hlen hlaw ?_ (fun _ _ => ?_) _ ?_ <;> rfl
  · obtain ⟨tick, sent, rfl, hsend, rfl⟩ := tablesPass_of_noteOff hstep ha
    rw [ha] at hfound hlands
    rcases hfind : firstAt (Entry.hasNote q) (s.get σ) with - | ⟨n, e⟩
    · obtain ⟨e, he, hnote⟩ := hfound
      exact absurd hnote (Entry.hasNote_eq_false_iff.mp (firstAt_eq_none_iff.mp hfind e he))
    · obtain ⟨i₀, he⟩ := hs σ e (firstAt_mem hfind)
      have hi₀ : (book as).sounding σ q = some i₀ :=
        Entry.hasNote_iff.mp (firstAt_test hfind) ▸ he.sounding
      have htime : 0 ≤ t := by
        rw [← (Pass.of_noteOff ha).2.2]
        exact ht
      rw [Book.step, hi₀]
      exact ⟨follows_noteOff hsane hs hdistinct hfind he hlands htime _,
        law_noteOff hsane hlen hlaw hw hbad hfind he hsend _ _⟩
  · obtain ⟨hsame, rfl⟩ := tablesPass_of_ignored hstep ha
    refine ⟨?_, law_enter hsane hlen hlaw rfl (fun _ _ => rfl) _ rfl⟩
    intro σ e he
    rw [hsame] at he
    obtain ⟨i, hi⟩ := hs σ e he
    exact ⟨i, hi.mono _ rfl rfl (fun _ _ => rfl)⟩

end pass

/-- Each message is due to one note of the score. -/
theorem Due.unique {as : List Action} {B : Book} (hsane : B.Sane as) {i i' j : ℕ} {p p' : ℤ}
    (hi : StruckNote as i .score p) (hi' : StruckNote as i' .score p') (h : Due B i j)
    (h' : Due B i' j) : i = i' := by
  -- the note that ends at `j` is the note itself or its partner
  have hends {i : ℕ} (h : Due B i j) : (∃ t, B.ended i = some (j, t)) ∨
      ∃ x t, B.partner x = some i ∧ B.ended x = some (j, t) := by
    rcases h with ⟨-, t, ht⟩ | ⟨x, j₁, j₂, t₁, t₂, hp, h1, h2, hmax⟩
    · exact Or.inl ⟨t, ht⟩
    · rcases max_choice j₁ j₂ with heq | heq
      · exact Or.inl ⟨t₁, by rw [hmax, heq, h1]⟩
      · exact Or.inr ⟨x, t₂, hsane.symm _ _ hp, by rw [hmax, heq, h2]⟩
  -- the partner of a note of the score is not one
  have hside {x y : ℕ} {q r : ℤ} (hx : StruckNote as x .score q) (hy : StruckNote as y .score r)
      (hp : B.partner x = some y) : False := by
    obtain ⟨σ, _, h1, h2⟩ := hsane.partners _ _ hp
    obtain ⟨rfl, -⟩ := h1.unique hx
    exact absurd (h2.unique hy).1 (Side.other_ne _)
  rcases hends h with ⟨t, ht⟩ | ⟨x, t, hp, ht⟩ <;>
    rcases hends h' with ⟨t', ht'⟩ | ⟨x', t', hp', ht'⟩
  · exact hsane.ended_inj _ _ _ _ _ ht ht'
  · obtain rfl := hsane.ended_inj _ _ _ _ _ ht ht'
    exact (hside hi hi' hp').elim
  · obtain rfl := hsane.ended_inj _ _ _ _ _ ht ht'
    exact (hside hi' hi hp).elim
  · obtain rfl := hsane.ended_inj _ _ _ _ _ ht ht'
    rw [hp] at hp'
    exact Option.some_inj.mp hp'

/-- **The grading law.**  If every result that is deferred reaches a live note
of its pitch, the messages of the run are those of the law, and no two notes
of the score share one. -/
theorem grading_law (cfg : Config) (c₁ c₂ : ℤ) (ps : List Pass)
    (hnew : NoRestrike (actions c₁ c₂ ps)) (hstray : NoStray (actions c₁ c₂ ps))
    (hfit : NoOverflow (actions c₁ c₂ ps)) (htime : ∀ p ∈ ps, 0 ≤ p.time)
    (hw : cfg.NonnegWeights) (hbad : 0 < cfg.maxBadness)
    (hlands : Guarded (midiEventPass cfg) (fun s p => Lands s.tables (p.action c₁ c₂))
      (initial c₁ c₂) ps) :
    ∃ s outs, run (midiEventPass cfg) (initial c₁ c₂) ps = .ok (s, outs) ∧
      GradingLaw cfg (actions c₁ c₂ ps) (book (actions c₁ c₂ ps)) outs ∧
      ∀ i i' j p p', StruckNote (actions c₁ c₂ ps) i .score p →
        StruckNote (actions c₁ c₂ ps) i' .score p' → Due (book (actions c₁ c₂ ps)) i j →
        Due (book (actions c₁ c₂ ps)) i' j → i = i' := by
  obtain ⟨s, outs, hrun⟩ : ∃ s outs, run (midiEventPass cfg) (initial c₁ c₂) ps = .ok (s, outs) :=
    run_ok hbad.ne' ps
  refine ⟨s, outs, hrun, ?_, fun i i' j p p' => Due.unique (book_sane hnew)⟩
  have hguard := guarded_tables (C := fun t p => Lands t (p.action c₁ c₂)) hlands
  have hstep : Follows (actions c₁ c₂ ps) (book (actions c₁ c₂ ps)) s.tables ∧
      GradingLaw cfg (actions c₁ c₂ ps) (book (actions c₁ c₂ ps)) outs := by
    refine run_induction (fun past outs t => past <+: ps →
      Follows (actions c₁ c₂ past) (book (actions c₁ c₂ past)) t ∧
        GradingLaw cfg (actions c₁ c₂ past) (book (actions c₁ c₂ past)) outs) ?_ ?_
      ((((guarded_room hfit).and (guarded_fresh hfit hnew)).and (guarded_found hfit hstray)).and
        (hguard.and (guarded_of_forall htime))) (run_tables hrun).1 List.prefix_rfl
    · intro _
      refine ⟨by simp [Follows], ?_, ?_, ?_⟩ <;> simp [actions, book, Book.empty, sentAt]
    · rintro past outs t p t' o hpast ih ⟨⟨⟨hroom, hfresh⟩, hfound⟩, hl, ht⟩ hstep hp
      have hpre : past <+: ps := (List.prefix_append _ _).trans hp
      have hnew' := hnew.shorten (hpre.map (Pass.action c₁ c₂))
      have hperm (σ : Side) := run_sounding hpast (hfit.shorten (hpre.map (Pass.action c₁ c₂))) σ
      obtain ⟨hfollows, hlaw⟩ := ih hpre
      rw [actions_snoc]
      refine grading_pass hstep hw hbad (book_sane hnew') ?_ ?_ hroom hfresh hfound hl ht ?_
        hfollows hlaw
      · intro σ
        exact (hperm σ).nodup_iff.mpr (sounding_nodup hnew' σ)
      · intro σ q hq
        have hmem : q ∈ sounding σ (actions c₁ c₂ past) := by
          by_contra hnot
          exact hq ((book_sounding_eq_none_iff hnew' σ q).mpr hnot)
        exact List.mem_map.mp ((hperm σ).mem_iff.mpr hmem)
      · rw [run_length hpast, actions, List.length_map]
  exact hstep.2

theorem chordReversed_graded : ∃ s outs,
    run (midiEventPass ⟨100, 10, 10, 5⟩) (initial 0 0) chordReversed = .ok (s, outs) ∧
      GradingLaw ⟨100, 10, 10, 5⟩ (actions 0 0 chordReversed) (book (actions 0 0 chordReversed))
        outs := by
  obtain ⟨s, outs, hrun, hlaw, -⟩ := grading_law ⟨100, 10, 10, 5⟩ 0 0 chordReversed (by decide)
    (by decide) (by decide) (by decide) ⟨by decide, by decide, by decide⟩ (by decide)
    (guarded_of_tables (C := fun t p => Lands t (p.action 0 0)) (by decide))
  exact ⟨s, outs, hrun, hlaw⟩

/-- **A chord released in order breaks the law**: nothing is sent for its
second pair. -/
theorem chord_not_graded :
    ¬ ∀ (cfg : Config) (c₁ c₂ : ℤ) (ps : List Pass), NoRestrike (actions c₁ c₂ ps) →
      NoStray (actions c₁ c₂ ps) → NoOverflow (actions c₁ c₂ ps) → (∀ p ∈ ps, 0 ≤ p.time) →
      ps.Pairwise (fun p q => p.time ≤ q.time) → cfg.NonnegWeights → 0 < cfg.maxBadness →
      ∃ s outs, run (midiEventPass cfg) (initial c₁ c₂) ps = .ok (s, outs) ∧
        GradingLaw cfg (actions c₁ c₂ ps) (book (actions c₁ c₂ ps)) outs := by
  intro h
  obtain ⟨s, outs, hrun, hlaw⟩ := h ⟨100, 10, 10, 5⟩ 0 0 chord (by decide) (by decide) (by decide)
    (by decide) (by decide) ⟨by decide, by decide, by decide⟩ (by decide)
  obtain ⟨-, rfl⟩ := run_unique hrun run_chord
  -- the notes at positions `1` and `3` are partners and end at `6` and `7`
  obtain ⟨color, -, hsent⟩ := hlaw.pair 1 3 64 0 10 480 0 6 7 520 530 rfl rfl rfl rfl rfl
  cases hsent

end MidiTraining
