/-
MidiTraining/Voices.lean

Pitch independence.

All pitches share the two tables, so deleting the events of one pitch moves
the notes of all others.  The *voice* of a pitch on a side is what its notes
are without their places: a link is kept as the rank of its target among the
notes of the pitch on the other side.  The voices of a pitch on the two
sides are a machine of their own (`voiceStep`), which knows nothing of the
other pitches, and a pass over the tables is a step of it (`voices_pass`,
`sent_of_voices`) as long as no link leads astray (`LinksHold`):

* a new note does not get a slot that a waiting note of its pitch already
  has as its link;
* a deferred result is not sent to a note of another pitch;
* a moved note jumps over no note of its pitch, and no note of its pitch
  goes on waiting with a link to the slot it leaves or to the one it gets.

The removal of `track_note_off` moves the last note without telling its
partner and so breaks the last of these; then the voices of other pitches
depend on the pitch that was removed (`chord_not_independent`).
-/
import MidiTraining.Sounding

namespace MidiTraining

open SwapRemove FaultMachine

/-! ### Voices -/

/-- A note without its place.  Its partner is kept while the note waits for
its end: the rank of the partner among the notes of the pitch. -/
structure Tone where
  start : ℤ
  tick : ℤ
  linked : Bool
  partner : Option ℕ
  lstart : ℤ
  lend : ℤ
  ltick : ℤ
  deriving DecidableEq, Repr

/-- The rank of the note that a waiting note designates in the other table,
if that is a live note of its pitch. -/
def Entry.partner (R : Table) (e : Entry) : Option ℕ :=
  if e.Waiting then rank (Entry.hasNote e.note) R e.link.toNat else none

/-- A note of a table next to the other table `R`, without its place. -/
def Entry.tone (R : Table) (e : Entry) : Tone where
  start := e.start
  tick := e.tick
  linked := decide (e.link > -1)
  partner := e.partner R
  lstart := e.lstart
  lend := e.lend
  ltick := e.ltick

/-- The notes of pitch `q` of the table `T` next to the other table `R`. -/
def voice (q : ℤ) (T R : Table) : List Tone := (T.filter (Entry.hasNote q)).map (Entry.tone R)

/-- The voices of a pitch on the two sides. -/
def voices (q : ℤ) (s : Tables) (σ : Side) : List Tone := voice q (s.get σ) (s.get σ.other)

/-- A side and the other one. -/
def Side.spread {α : Type*} (σ : Side) (x : α × α) (τ : Side) : α := if τ = σ then x.1 else x.2

theorem Side.spread_eq {α : Type*} (σ : Side) (v : Side → α) : σ.spread (v σ, v σ.other) = v := by
  funext τ
  rcases Side.eq_or_eq_other σ τ with rfl | rfl
  · simp [Side.spread]
  · simp [Side.spread]

/-! ### The machine of one pitch -/

namespace Tone

/-- What the linking loop does to a note of the pitch. -/
def linkTo (k : ℕ) (b : Tone) : Tone :=
  if b.linked then b else { b with linked := true, partner := if b.lend > -1 then none else some k }

/-- The infos sent to the linked note, which waits no longer. -/
def receive (b : Tone) (t : ℤ) (r : Tone) : Tone :=
  { r with lstart := b.start, lend := t, ltick := b.tick, partner := none }

/-- The first note of the other side has gone. -/
def forget (r : Tone) : Tone := { r with partner := r.partner.bind Nat.ppred }

/-- The badness of a note that ends. -/
def badness (cfg : Config) (t isInst : ℤ) (b : Tone) : ℤ :=
  if b.linked then
    if b.lend > -1 then weightedDelay cfg isInst t b.start b.lstart b.lend else -2
  else -1

/-- The tick that its note-off returns. -/
def tickOf (isInst : ℤ) (b : Tone) : ℤ := if isInst = 1 then b.ltick else b.tick

end Tone

/-- A note-on of the pitch, for the voice of its side and the other one. -/
def strike (V W : List Tone) (t tick : ℤ) : List Tone × List Tone :=
  let partner := lastIdx (fun b => !b.linked) W
  (V ++ [⟨t, tick, partner.isSome, partner, -1, -1, -1⟩], W.map (Tone.linkTo V.length))

/-- A note-off of the pitch. -/
def release (V W : List Tone) (t : ℤ) : List Tone × List Tone :=
  match V with
  | [] => ([], W)
  | b :: V' =>
      (V', (match b.partner with
        | some k => W.modify k (b.receive t)
        | none => W).map Tone.forget)

/-- One step of the machine of pitch `q`. -/
def voiceStep (q : ℤ) (v : Side → List Tone) : Action → Side → List Tone
  | .noteOn σ p t tick =>
      if p = q then σ.spread (strike (v σ) (v σ.other) t tick) else v
  | .noteOff σ p t => if p = q then σ.spread (release (v σ) (v σ.other) t) else v
  | .ignored => v

/-! ### Reading voices -/

section voice

variable {T R R' : Table} {q : ℤ} {e : Entry}

theorem length_voice (q : ℤ) (T R : Table) : (voice q T R).length = T.countP (Entry.hasNote q) := by
  rw [voice, List.length_map, List.countP_eq_length_filter]

theorem voice_append (q : ℤ) (T T' R : Table) :
    voice q (T ++ T') R = voice q T R ++ voice q T' R := by
  simp [voice]

theorem voice_singleton_of_ne (h : e.note ≠ q) (R : Table) : voice q [e] R = [] := by
  simp [voice, Entry.hasNote, h]

theorem voice_singleton (h : e.note = q) (R : Table) : voice q [e] R = [e.tone R] := by
  simp [voice, Entry.hasNote, h]

theorem voice_cons (h : e.note = q) (T R : Table) :
    voice q (e :: T) R = e.tone R :: voice q T R := by
  simp [voice, Entry.hasNote, h]

theorem voice_eq_nil_iff : voice q T R = [] ↔ ∀ e ∈ T, e.note ≠ q := by
  rw [voice, List.map_eq_nil_iff, List.filter_eq_nil_iff]
  simp

/-- A voice begins with the note a note-off finds. -/
theorem voice_of_firstAt {n : ℕ} (h : firstAt (Entry.hasNote q) T = some (n, e)) (R : Table) :
    ∃ V, voice q T R = e.tone R :: V := by
  obtain ⟨pre, post, rfl, -, he, hpre⟩ := firstAt_eq_some_iff.mp h
  exact ⟨_, by rw [voice, filter_of_firstAt he hpre, List.map_cons]⟩

/-- A voice depends on the other table through the partners only. -/
theorem voice_congr_ref (h : ∀ e ∈ T, e.note = q → e.partner R = e.partner R') :
    voice q T R = voice q T R' := by
  refine List.map_congr_left fun e he => ?_
  obtain ⟨hmem, hnote⟩ := List.mem_filter.mp he
  simp only [Entry.tone, h e hmem (Entry.hasNote_iff.mp hnote)]

/-- Partners depend on the pitches of the other table only. -/
theorem partner_congr (h : R.map Entry.note = R'.map Entry.note) (e : Entry) :
    e.partner R = e.partner R' := by
  have hrank : rank (Entry.hasNote e.note) R e.link.toNat =
      rank (Entry.hasNote e.note) R' e.link.toNat := by
    refine rank_congr ?_ _
    have hmap := congrArg (List.map fun x => decide (x = e.note)) h
    rw [List.map_map, List.map_map] at hmap
    exact hmap
  simp only [Entry.partner, hrank]

theorem voice_congr_notes (h : R.map Entry.note = R'.map Entry.note) (q : ℤ) (T : Table) :
    voice q T R = voice q T R' :=
  voice_congr_ref fun e _ _ => partner_congr h e

theorem partner_of_waiting (h : e.Waiting) :
    e.partner R = rank (Entry.hasNote e.note) R e.link.toNat := by
  rw [Entry.partner, if_pos h]

theorem partner_of_not_waiting (h : ¬ e.Waiting) : e.partner R = none := by
  rw [Entry.partner, if_neg h]

end voice

/-! ### A note-on -/

section noteOn

variable {T R : Table} {note x : ℤ}

/-- The link of a new note, as a rank. -/
theorem lastIdx_voice (hR : WellLinked R) (T : Table) (note : ℤ) :
    lastIdx (fun b => !b.linked) (voice note R T) =
      (lastIdx (Entry.free note) R).bind (rank (Entry.hasNote note) R) := by
  rw [← lastIdx_filter fun a ha => Entry.hasNote_iff.mpr (Entry.free_iff.mp ha).2]
  refine lastIdx_map fun e he => ?_
  obtain ⟨hmem, hnote⟩ := List.mem_filter.mp he
  have hge := (hR e hmem).1
  have hlink : decide (e.link > -1) = !decide (e.link = -1) := by
    by_cases h : e.link = -1
    · simp [h]
    · simp [h]
      omega
  show (!decide (e.link > -1)) = (decide (e.link = -1) && e.hasNote note)
  rw [hlink, hnote, Bool.not_not, Bool.and_true]

/-- The note that a note-on saves. -/
theorem tone_of_new (hR : WellLinked R) (T R' : Table)
    (hnotes : R'.map Entry.note = R.map Entry.note) (note t tick : ℤ) :
    ({ Entry.fresh note t tick with link := newLink R note } : Entry).tone R' =
      ⟨t, tick, (lastIdx (fun b => !b.linked) (voice note R T)).isSome,
        lastIdx (fun b => !b.linked) (voice note R T), -1, -1, -1⟩ := by
  rw [lastIdx_voice hR, Entry.tone, partner_congr hnotes]
  unfold newLink
  rcases h : lastIdx (Entry.free note) R with - | n
  · have hw : ¬ ({ Entry.fresh note t tick with link := -1 } : Entry).Waiting := fun hw => by
      have := hw.1
      simp at this
    simp only [partner_of_not_waiting hw]
    rfl
  · obtain ⟨r, hr, hfree⟩ := lastIdx_getElem? h
    have hw : ({ Entry.fresh note t tick with link := (n : ℤ) } : Entry).Waiting := by
      refine ⟨?_, ?_⟩
      · show (n : ℤ) > -1
        omega
      · simp [Entry.fresh]
    have hrank := rank_of_test hr (Entry.hasNote_iff.mpr (Entry.free_iff.mp hfree).2)
    simp only [partner_of_waiting hw, Option.bind_some, Int.toNat_natCast]
    simp [Entry.fresh, hrank]
    omega

/-- The voices of the side of a note-on. -/
theorem voice_noteOn_track (hroom : T.length < maxLength) (hR : WellLinked R) (t tick : ℤ) :
    voice x (noteOn T R note t tick).1 (noteOn T R note t tick).2 =
      if note = x then (strike (voice x T R) (voice x R T) t tick).1 else voice x T R := by
  rw [noteOn_of_room hroom]
  have hnotes := map_linkTo (Entry.linkTo_note note T.length) R
  have hold := voice_congr_notes hnotes x T
  have hnew : ({ Entry.fresh note t tick with link := newLink R note } : Entry).note = note := rfl
  split
  · rename_i heq
    subst heq
    rw [voice_append, voice_singleton hnew, hold, tone_of_new hR T _ hnotes]
    rfl
  · rename_i hne
    rw [voice_append, voice_singleton_of_ne (hnew ▸ hne), List.append_nil, hold]

/-- A new note of another pitch is no partner. -/
theorem tone_snoc_of_ne {r e : Entry} (h : e.note ≠ r.note) (T : Table) :
    r.tone (T ++ [e]) = r.tone T := by
  simp only [Entry.tone, Entry.partner,
    rank_snoc_of_not_test T (Entry.hasNote_eq_false_iff.mpr h)]

/-- The linking loop on a note of the pitch struck. -/
theorem tone_linkTo {r e : Entry} (he : e.note = note) (hr : r.note = note) (hge : -1 ≤ r.link)
    (hfar : r.Waiting → r.link ≠ T.length) :
    (r.linkTo note T.length).tone (T ++ [e]) =
      (r.tone T).linkTo (T.countP (Entry.hasNote note)) := by
  by_cases hlink : r.link = -1
  · -- a free note takes the new one as its partner
    rw [Entry.linkTo_of_free (Entry.free_iff.mpr ⟨hlink, hr⟩)]
    have hpos : (T.length : ℤ) > -1 := by omega
    have hpartner : ({ r with link := (T.length : ℤ) } : Entry).partner (T ++ [e]) =
        if r.lend > -1 then none else some (T.countP (Entry.hasNote note)) := by
      split
      · rename_i hlend
        exact partner_of_not_waiting fun hw => hw.2 hlend
      · rename_i hlend
        have hw : ({ r with link := (T.length : ℤ) } : Entry).Waiting := ⟨hpos, hlend⟩
        rw [partner_of_waiting hw]
        show rank (Entry.hasNote r.note) (T ++ [e]) (T.length : ℤ).toNat = _
        rw [Int.toNat_natCast, hr, rank_snoc_length T (Entry.hasNote_iff.mpr he)]
    simp [Entry.tone, Tone.linkTo, hpartner, hlink, hpos]
  · -- a linked one keeps its own
    rw [Entry.linkTo_of_link_ne hlink]
    have hlinked : r.link > -1 := by omega
    have hsame : r.partner (T ++ [e]) = r.partner T := by
      by_cases hw : r.Waiting
      · have hne := hfar hw
        rw [partner_of_waiting hw, partner_of_waiting hw, rank_snoc_of_ne _ _ (by omega)]
      · rw [partner_of_not_waiting hw, partner_of_not_waiting hw]
    simp [Tone.linkTo, Entry.tone, hlinked, hsame]

/-- The voices of the other side. -/
theorem voice_noteOn_ref (hroom : T.length < maxLength) (hR : WellLinked R)
    (hfar : ∀ r ∈ R, r.note = note → r.Waiting → r.link ≠ T.length) (t tick : ℤ) :
    voice x (noteOn T R note t tick).2 (noteOn T R note t tick).1 =
      if note = x then (strike (voice x T R) (voice x R T) t tick).2 else voice x R T := by
  rw [noteOn_of_room hroom]
  have hnew : ({ Entry.fresh note t tick with link := newLink R note } : Entry).note = note := rfl
  have hfilter : (R.map (Entry.linkTo note T.length)).filter (Entry.hasNote x) =
      (R.filter (Entry.hasNote x)).map (Entry.linkTo note T.length) := by
    rw [List.filter_map]
    refine congrArg _ (List.filter_congr fun e _ => ?_)
    simp [Entry.hasNote]
  show ((R.map (Entry.linkTo note T.length)).filter (Entry.hasNote x)).map
    (Entry.tone (T ++ [_])) = _
  rw [hfilter, List.map_map]
  split
  · rename_i heq
    subst heq
    show _ = (voice note R T).map (Tone.linkTo (voice note T R).length)
    rw [length_voice, voice, List.map_map]
    refine List.map_congr_left fun r hr => ?_
    obtain ⟨hmem, hnote⟩ := List.mem_filter.mp hr
    rw [Entry.hasNote_iff] at hnote
    exact tone_linkTo hnew hnote (hR r hmem).1 (hfar r hmem hnote)
  · rename_i hne
    refine List.map_congr_left fun r hr => ?_
    obtain ⟨-, hnote⟩ := List.mem_filter.mp hr
    rw [Entry.hasNote_iff] at hnote
    show (r.linkTo note T.length).tone _ = r.tone T
    rw [Entry.linkTo_of_note_ne (by rw [hnote]; exact Ne.symm hne)]
    exact tone_snoc_of_ne (by rw [hnew, hnote]; exact hne) T

end noteOn

/-! ### Links that lead nowhere else -/

/-- A deferred result goes to a note of pitch `q` or is lost. -/
def SendsHome (R : Table) (q t : ℤ) (e : Entry) : Prop :=
  e.Waiting → 0 ≤ t ∧ ∀ r ∈ R[e.link.toNat]?, r.note = q

/-- The removal of slot `n`, which holds `e`, moves no note that another one
waits for. -/
def MovesAlone (T R : Table) (n : ℕ) (e : Entry) : Prop :=
  ∀ z ∈ (T.drop (n + 1)).getLast?, (∀ y ∈ (T.drop (n + 1)).dropLast, y.note ≠ z.note) ∧
    ∀ j (h : j < R.length), R[j].note = z.note → R[j].Waiting →
      ¬ (e.Waiting ∧ e.link.toNat = j) → R[j].link ≠ n ∧ R[j].link + 1 ≠ T.length

/-- **What a pass must find for the voices to be independent.** -/
def LinksHold (t : Tables) : Action → Prop
  | .noteOn σ q _ _ => ∀ r ∈ t.get σ.other, r.note = q → r.Waiting → r.link ≠ (t.get σ).length
  | .noteOff σ q u => ∀ x ∈ firstAt (Entry.hasNote q) (t.get σ),
      SendsHome (t.get σ.other) q u x.2 ∧ MovesAlone (t.get σ) (t.get σ.other) x.1 x.2
  | .ignored => True

instance (R : Table) (q t : ℤ) (e : Entry) : Decidable (SendsHome R q t e) := by
  unfold SendsHome
  infer_instance

instance (T R : Table) (n : ℕ) (e : Entry) : Decidable (MovesAlone T R n e) := by
  unfold MovesAlone
  infer_instance

instance (t : Tables) : (a : Action) → Decidable (LinksHold t a)
  | .noteOn σ q _ _ => inferInstanceAs (Decidable (∀ r ∈ t.get σ.other, r.note = q → r.Waiting →
      r.link ≠ (t.get σ).length))
  | .noteOff σ q u => inferInstanceAs (Decidable (∀ x ∈ firstAt (Entry.hasNote q) (t.get σ),
      SendsHome (t.get σ.other) q u x.2 ∧ MovesAlone (t.get σ) (t.get σ.other) x.1 x.2))
  | .ignored => isTrue trivial

/-! ### A note-off -/

section noteOff

variable {cfg : Config} {T R : Table} {q x t i : ℤ} {n : ℕ} {e : Entry}

/-- The pitches of the other table stay. -/
theorem noteOff_ref_notes (h : firstAt (Entry.hasNote q) T = some (n, e)) :
    (noteOff cfg T R q t i).ref.map Entry.note = R.map Entry.note := by
  by_cases hw : e.Waiting
  · rw [noteOff_ref_of_waiting cfg R t i h hw, map_modify_receive (e.receive_note t)]
  · rw [noteOff_ref_of_not_waiting cfg R t i h hw]

/-- The infos sent, without places. -/
theorem tone_receive (e r : Entry) (R : Table) {t : ℤ} (ht : 0 ≤ t) :
    (e.receive t r).tone T = (e.tone R).receive t (r.tone T) := by
  have hw : ¬ (e.receive t r).Waiting := fun hw => hw.2 (by simp; omega)
  simp only [Entry.tone, partner_of_not_waiting hw]
  rfl

/-- The deferred result, among the notes of a pitch. -/
theorem voice_sent (h : firstAt (Entry.hasNote q) T = some (n, e)) (hhome : SendsHome R q t e) :
    voice x (noteOff cfg T R q t i).ref T =
      if q = x then
        match e.partner R with
        | some k => (voice x R T).modify k ((e.tone R).receive t)
        | none => voice x R T
      else voice x R T := by
  have hnote : e.note = q := Entry.hasNote_iff.mp (firstAt_test h)
  by_cases hw : e.Waiting
  · obtain ⟨ht, htarget⟩ := hhome hw
    have hkeep (r : Entry) : Entry.hasNote x (e.receive t r) = Entry.hasNote x r := rfl
    rw [noteOff_ref_of_waiting cfg R t i h hw, voice, filter_modify hkeep]
    by_cases hqx : q = x
    · subst hqx
      rw [if_pos rfl, partner_of_waiting hw, hnote]
      rcases rank (Entry.hasNote q) R e.link.toNat with - | k
      · rfl
      · exact map_modify (fun r => tone_receive e r R ht) _ k
    · have hnone : rank (Entry.hasNote x) R e.link.toNat = none := by
        rcases hr : R[e.link.toNat]? with - | r
        · exact rank_of_length_le (List.getElem?_eq_none_iff.mp hr)
        · refine rank_of_not_test hr (Entry.hasNote_eq_false_iff.mpr ?_)
          rw [htarget r hr]
          exact hqx
      rw [if_neg hqx, hnone]
      rfl
  · rw [noteOff_ref_of_not_waiting cfg R t i h hw, partner_of_not_waiting hw]
    split <;> rfl

/-- The voices of the side of a note-off. -/
theorem voice_noteOff_track (h : firstAt (Entry.hasNote q) T = some (n, e))
    (hmove : MovesAlone T R n e) :
    voice x (noteOff cfg T R q t i).track (noteOff cfg T R q t i).ref =
      if q = x then (voice x T R).tail else voice x T R := by
  rw [voice_congr_notes (noteOff_ref_notes h), noteOff_track cfg R t i h]
  obtain ⟨pre, post, rfl, rfl, he, hpre⟩ := firstAt_eq_some_iff.mp h
  rw [MovesAlone, drop_succ_append] at hmove
  have hkeeps : KeepsOrder Entry.note post := fun z hz => (hmove z hz).1
  have hfilter : (swapRemove (pre ++ e :: post) pre.length).filter (Entry.hasNote x) =
      (pre ++ post).filter (Entry.hasNote x) := by
    rw [swapRemove_append, List.filter_append, List.filter_append]
    exact congrArg _ (filter_rotateLast hkeeps x)
  have hvoice : voice x (swapRemove (pre ++ e :: post) pre.length) R = voice x (pre ++ post) R := by
    rw [voice, hfilter, voice]
  rw [hvoice]
  split
  · rename_i heq
    subst heq
    have hnil : voice q pre R = [] :=
      voice_eq_nil_iff.mpr fun b hb => Entry.hasNote_eq_false_iff.mp (hpre b hb)
    rw [voice_append, voice_append, hnil, voice_cons (Entry.hasNote_iff.mp he)]
    rfl
  · rename_i hne
    have hnote : e.note = q := Entry.hasNote_iff.mp he
    have hsingle := voice_singleton_of_ne (e := e) (q := x) (by rw [hnote]; exact hne) R
    have hsplit : pre ++ e :: post = pre ++ ([e] ++ post) := rfl
    rw [hsplit, voice_append, voice_append, voice_append, hsingle, List.nil_append]

/-- A note that goes on waiting, and the slots of the note that is moved. -/
theorem unmoved_of_movesAlone (h : firstAt (Entry.hasNote q) T = some (n, e))
    (hhome : SendsHome R q t e) (hmove : MovesAlone T R n e) {r : Entry}
    (hr : r ∈ (noteOff cfg T R q t i).ref) (hw : r.Waiting) :
    Unmoved (Entry.hasNote r.note) T n r.link.toNat := by
  intro z hz hzr
  have hznote : z.note = r.note := Entry.hasNote_iff.mp hzr
  obtain ⟨hjump, hfar⟩ := hmove z hz
  refine ⟨fun y hy => Entry.hasNote_eq_false_iff.mpr (hznote ▸ hjump y hy), ?_⟩
  obtain ⟨j, hj, hleft⟩ : ∃ j, R[j]? = some r ∧ ¬ (e.Waiting ∧ e.link.toNat = j) := by
    by_cases hew : e.Waiting
    · rw [noteOff_ref_of_waiting cfg R t i h hew] at hr
      obtain ⟨j, hj⟩ := List.mem_iff_getElem?.mp hr
      rw [List.getElem?_modify] at hj
      by_cases hij : e.link.toNat = j
      · -- the note that receives the infos waits no longer
        exfalso
        obtain ⟨r₀, -, rfl⟩ : ∃ r₀, R[j]? = some r₀ ∧ e.receive t r₀ = r := by
          simpa [hij] using hj
        have ht := (hhome hew).1
        exact hw.2 (by simp; omega)
      · refine ⟨j, ?_, fun hboth => hij hboth.2⟩
        simpa [hij] using hj
    · rw [noteOff_ref_of_not_waiting cfg R t i h hew] at hr
      obtain ⟨j, hj⟩ := List.mem_iff_getElem?.mp hr
      exact ⟨j, hj, fun hboth => hew hboth.1⟩
  obtain ⟨hlt, rfl⟩ := List.getElem?_eq_some_iff.mp hj
  have hne := hfar j hlt hznote.symm hw hleft
  have hpos := hw.1
  omega

/-- The voices of the other side. -/
theorem voice_noteOff_ref (h : firstAt (Entry.hasNote q) T = some (n, e))
    (hhome : SendsHome R q t e) (hmove : MovesAlone T R n e) :
    voice x (noteOff cfg T R q t i).ref (noteOff cfg T R q t i).track =
      if q = x then (voice x (noteOff cfg T R q t i).ref T).map Tone.forget
      else voice x (noteOff cfg T R q t i).ref T := by
  have hpartner : ∀ r ∈ (noteOff cfg T R q t i).ref, r.note = x →
      r.partner (noteOff cfg T R q t i).track =
        if q = x then (r.partner T).bind Nat.ppred else r.partner T := by
    intro r hr hnote
    by_cases hw : r.Waiting
    · have hun := unmoved_of_movesAlone h hhome hmove hr hw
      rw [noteOff_track cfg R t i h, partner_of_waiting hw, partner_of_waiting hw]
      obtain ⟨pre, post, rfl, rfl, he, hpre⟩ := firstAt_eq_some_iff.mp h
      have hfirst : Entry.hasNote r.note e = true → ∀ b ∈ pre, Entry.hasNote r.note b = false := by
        intro her b hb
        rw [← Entry.hasNote_iff.mp her, Entry.hasNote_iff.mp he]
        exact hpre b hb
      rw [rank_swapRemove hfirst hun]
      have hiff : Entry.hasNote r.note e = true ↔ q = x := by
        rw [Entry.hasNote_iff, Entry.hasNote_iff.mp he, hnote]
      by_cases hqx : q = x
      · rw [if_pos hqx, if_pos (hiff.mpr hqx)]
      · rw [if_neg hqx, if_neg (mt hiff.mp hqx)]
    · rw [partner_of_not_waiting hw, partner_of_not_waiting hw]
      split <;> rfl
  split
  · rename_i hqx
    rw [voice, voice, List.map_map]
    refine List.map_congr_left fun r hr => ?_
    obtain ⟨hmem, hnote⟩ := List.mem_filter.mp hr
    have hr' := hpartner r hmem (Entry.hasNote_iff.mp hnote)
    rw [if_pos hqx] at hr'
    simp only [Entry.tone, hr', Function.comp_apply, Tone.forget]
  · rename_i hqx
    refine voice_congr_ref fun r hr hnote => ?_
    rw [hpartner r hr hnote, if_neg hqx]

theorem voice_of_not_found (h : firstAt (Entry.hasNote q) T = none) (R : Table) :
    voice q T R = [] :=
  voice_eq_nil_iff.mpr fun e he => Entry.hasNote_eq_false_iff.mp (firstAt_eq_none_iff.mp h e he)

/-- The note at the head of a voice is the one a note-off finds. -/
theorem exists_of_voice_cons {b : Tone} {V : List Tone} (h : voice q T R = b :: V) :
    ∃ n e, firstAt (Entry.hasNote q) T = some (n, e) ∧ e.tone R = b := by
  rcases hfind : firstAt (Entry.hasNote q) T with - | ⟨n, e⟩
  · rw [voice_of_not_found hfind] at h
    cases h
  · obtain ⟨V', hV'⟩ := voice_of_firstAt hfind R
    rw [hV'] at h
    exact ⟨n, e, rfl, (List.cons.inj h).1⟩

theorem gradeEntry_badness (cfg : Config) (R : Table) (t i : ℤ) (e : Entry) :
    (gradeEntry cfg R t i e).1 = (e.tone R).badness cfg t i := by
  rcases e.trichotomy with hu | ha | hw
  · rw [gradeEntry_of_unlinked _ _ _ _ hu]
    simp [Tone.badness, Entry.tone, hu]
  · rw [gradeEntry_of_answered _ _ _ _ ha]
    simp [Tone.badness, Entry.tone, ha.1, ha.2]
  · rw [gradeEntry_of_waiting _ _ _ _ hw]
    simp [Tone.badness, Entry.tone, hw.1, hw.2]

end noteOff

/-! ### A pass is a step of each voice -/

section pass

variable {cfg : Config} {c₁ c₂ : ℤ} {s s' : Tables} {p : Pass} {o : Output}

theorem voices_put (q : ℤ) (σ : Side) (T R : Table) (tick : Option ℤ) :
    voices q (.put σ T R tick) = σ.spread (voice q T R, voice q R T) := by
  rw [← Side.spread_eq σ (voices q _)]
  simp [voices]

theorem voices_eq_spread (q : ℤ) (s : Tables) (σ : Side) :
    σ.spread (voice q (s.get σ) (s.get σ.other), voice q (s.get σ.other) (s.get σ)) =
      voices q s := by
  rw [← Side.spread_eq σ (voices q s)]
  simp [voices]

/-- **Each pitch is a machine of its own.** -/
theorem voices_pass (h : tablesPass cfg c₁ c₂ s p = .ok (s', o))
    (hlinked : ∀ σ, WellLinked (s.get σ)) (hroom : Room s (p.action c₁ c₂))
    (hlinks : LinksHold s (p.action c₁ c₂)) (q : ℤ) :
    voices q s' = voiceStep q (voices q s) (p.action c₁ c₂) := by
  rcases tablesPass_cases h with ⟨side, note, t, k, tick, ha, rfl, -⟩ |
    ⟨side, note, t, tick, sent, ha, rfl, -, -⟩ | ⟨ha, hsame, -⟩
  · rw [ha] at hroom hlinks ⊢
    rw [voices_put, voice_noteOn_track hroom (hlinked _), voice_noteOn_ref hroom (hlinked _) hlinks]
    show _ = if note = q then _ else _
    split
    · simp only [voices, Side.other_other]
    · exact voices_eq_spread q s side
  · rw [ha] at hlinks ⊢
    rw [voices_put]
    show _ = if note = q then _ else _
    rcases hfind : firstAt (Entry.hasNote note) (s.get side) with - | ⟨n, e⟩
    · -- the pitch is not found: nothing changes
      simp only [noteOff, hfind]
      rw [voices_eq_spread]
      split
      · rename_i heq
        subst heq
        have hnil : voices note s side = [] := voice_of_not_found hfind _
        rw [hnil, release, ← hnil, Side.spread_eq]
      · rfl
    · obtain ⟨hhome, hmove⟩ := hlinks (n, e) hfind
      rw [voice_noteOff_track hfind hmove, voice_noteOff_ref hfind hhome hmove,
        voice_sent hfind hhome]
      split
      · rename_i heq
        subst heq
        obtain ⟨V, hV⟩ := voice_of_firstAt hfind (s.get side.other)
        simp only [voices, Side.other_other, hV]
        rfl
      · exact voices_eq_spread q s side
  · rw [ha]
    funext σ
    rw [voices, hsame, hsame]
    rfl

/-- What a pass sends depends on the voices of its pitch. -/
theorem sent_of_voices (cfg : Config) {s t : Tables} {p : Pass} (hfound : Found s (p.action c₁ c₂))
    (hv : voices p.ev.note s = voices p.ev.note t) :
    (tablesPass cfg c₁ c₂ s p).map (fun r => r.2.sent) =
      (tablesPass cfg c₁ c₂ t p).map (fun r => r.2.sent) := by
  rcases ha : p.action c₁ c₂ with ⟨side, note, u, k⟩ | ⟨side, note, u⟩ | -
  · simp only [tablesPass, ha]
    rfl
  · rw [ha] at hfound
    obtain ⟨-, rfl, -⟩ := Pass.of_noteOff ha
    have hvoice := congrFun hv side
    obtain ⟨e₀, hmem, hnote⟩ := hfound
    rcases hs : voices p.ev.note s side with - | ⟨b, V⟩
    · exact absurd hnote (voice_eq_nil_iff.mp hs e₀ hmem)
    · have hcall (s : Tables) (hs : voices p.ev.note s side = b :: V) :
          (tablesPass cfg c₁ c₂ s p).map (fun r => r.2.sent) =
            sendMessage cfg side (b.badness cfg u side.isInst) (some (b.tickOf side.isInst))
              p.ev.note := by
        obtain ⟨n, e, hfind, rfl⟩ := exists_of_voice_cons hs
        have htick : (e.tone (s.get side.other)).tickOf side.isInst = tickOf side.isInst e := rfl
        rw [← gradeEntry_badness, htick]
        simp only [tablesPass, ha, noteOff, hfind, Option.some_or]
        rcases sendMessage cfg side (gradeEntry cfg (s.get side.other) u side.isInst e).1
          (some (tickOf side.isInst e)) p.ev.note with err | sent <;> rfl
      rw [hcall s hs, hcall t (hvoice ▸ hs)]
  · simp only [tablesPass, ha]
    rfl

/-- A pass sends messages of its own pitch. -/
theorem sent_note (h : tablesPass cfg c₁ c₂ s p = .ok (s', o)) :
    ∀ m ∈ o.sent, m.note = p.ev.note := by
  rcases tablesPass_cases h with ⟨_, _, _, _, _, -, -, rfl⟩ |
    ⟨side, note, t, tick, sent, ha, -, hsend, rfl⟩ | ⟨-, -, rfl⟩
  · simp [Output.silent]
  · obtain ⟨-, rfl, -⟩ := Pass.of_noteOff ha
    rcases sendMessage_cases hsend with ⟨-, color, -, rfl⟩ | ⟨-, rfl⟩ <;> simp
  · simp [Output.silent]

/-- A pass leaves the voices of the other pitches alone. -/
theorem voiceStep_of_ne {q : ℤ} (h : p.ev.note ≠ q) (v : Side → List Tone) :
    voiceStep q v (p.action c₁ c₂) = v := by
  rcases ha : p.action c₁ c₂ with ⟨side, note, u, k⟩ | ⟨side, note, u⟩ | -
  · obtain ⟨-, rfl, -⟩ := Pass.of_noteOn ha
    rw [voiceStep, if_neg h]
  · obtain ⟨-, rfl, -⟩ := Pass.of_noteOff ha
    rw [voiceStep, if_neg h]
  · rfl

end pass

/-! ### Deleting a pitch -/

/-- The run without the events of pitch `p`. -/
def withoutPitch (p : ℤ) (ps : List Pass) : List Pass := ps.filter fun x => decide (x.ev.note ≠ p)

/-- The messages for the pitches other than `p`. -/
def otherMessages (p : ℤ) (outs : List Output) : List Message :=
  (outs.flatMap Output.sent).filter fun m => decide (m.note ≠ p)

/-- Deleting pitch `p` from the run leaves the messages for all other pitches
unchanged. -/
def PitchIndependent (cfg : Config) (c₁ c₂ p : ℤ) (ps : List Pass) : Prop :=
  ∀ s outs, run (midiEventPass cfg) (initial c₁ c₂) ps = .ok (s, outs) →
    ∃ s' outs', run (midiEventPass cfg) (initial c₁ c₂) (withoutPitch p ps) = .ok (s', outs') ∧
      otherMessages p outs = otherMessages p outs'

section without

variable {c₁ c₂ : ℤ}

theorem withoutPitch_snoc (p : ℤ) (ps : List Pass) (x : Pass) :
    withoutPitch p (ps ++ [x]) =
      if x.ev.note = p then withoutPitch p ps else withoutPitch p ps ++ [x] := by
  rw [withoutPitch, List.filter_append]
  split
  · rename_i hp
    simp [withoutPitch, hp]
  · rename_i hp
    simp [withoutPitch, hp]

theorem soundStep_filter (σ : Side) (p : ℤ) (l : List ℤ) (x : Pass) :
    (soundStep σ l (x.action c₁ c₂)).filter (fun q => decide (q ≠ p)) =
      if x.ev.note = p then l.filter (fun q => decide (q ≠ p))
      else soundStep σ (l.filter fun q => decide (q ≠ p)) (x.action c₁ c₂) := by
  rcases ha : x.action c₁ c₂ with ⟨side, note, u, k⟩ | ⟨side, note, u⟩ | -
  · obtain ⟨-, rfl, -⟩ := Pass.of_noteOn ha
    by_cases hp : x.ev.note = p <;> by_cases hσ : side = σ <;> simp [soundStep, hp, hσ]
  · obtain ⟨-, rfl, -⟩ := Pass.of_noteOff ha
    by_cases hσ : side = σ
    · rw [soundStep, soundStep, if_pos hσ, if_pos hσ, ← List.erase_filter]
      split
      · rename_i hp
        exact List.erase_of_not_mem (by simp [hp])
      · rfl
    · rw [soundStep, soundStep, if_neg hσ, if_neg hσ, ite_self]
  · simp [soundStep]

/-- The notes that sound without pitch `p`. -/
theorem sounding_withoutPitch (σ : Side) (p : ℤ) (ps : List Pass) :
    sounding σ (actions c₁ c₂ (withoutPitch p ps)) =
      (sounding σ (actions c₁ c₂ ps)).filter fun q => decide (q ≠ p) := by
  induction ps using List.reverseRecOn with
  | nil => rfl
  | append_singleton ps x ih =>
    rw [actions_snoc, sounding_snoc, soundStep_filter, withoutPitch_snoc]
    split
    · exact ih
    · rw [actions_snoc, sounding_snoc, ih]

/-- Deleting a pitch makes no table overflow. -/
theorem noOverflow_withoutPitch {ps : List Pass} (h : NoOverflow (actions c₁ c₂ ps)) (p : ℤ) :
    NoOverflow (actions c₁ c₂ (withoutPitch p ps)) := by
  induction ps using List.reverseRecOn with
  | nil => exact always_nil _
  | append_singleton ps x ih =>
    rw [actions_snoc] at h
    obtain ⟨hpast, hfits⟩ := always_snoc.mp h
    rw [withoutPitch_snoc]
    split
    · exact ih hpast
    · rw [actions_snoc]
      refine always_snoc.mpr ⟨ih hpast, ?_⟩
      rcases ha : x.action c₁ c₂ with ⟨side, note, u, k⟩ | ⟨side, note, u⟩ | -
      · rw [ha] at hfits
        have hle := List.length_filter_le (fun q => decide (q ≠ p))
          (sounding side (actions c₁ c₂ ps))
        rw [← sounding_withoutPitch] at hle
        exact lt_of_le_of_lt hle hfits
      · trivial
      · trivial

end without

/-! ### The program -/

/-- **Pitch independence**, as long as the links hold in the run and in the
run without the pitch. -/
theorem pitch_independent (cfg : Config) (c₁ c₂ p : ℤ) (ps : List Pass)
    (hfit : NoOverflow (actions c₁ c₂ ps)) (hend : NoStray (actions c₁ c₂ ps))
    (hlinks : Guarded (midiEventPass cfg) (fun s x => LinksHold s.tables (x.action c₁ c₂))
      (initial c₁ c₂) ps)
    (hlinks' : Guarded (midiEventPass cfg) (fun s x => LinksHold s.tables (x.action c₁ c₂))
      (initial c₁ c₂) (withoutPitch p ps)) : PitchIndependent cfg c₁ c₂ p ps := by
  intro s outs hrun
  have hC := ((guarded_wellLinked.and (guarded_room hfit)).and
    (guarded_tables (C := fun t x => LinksHold t (x.action c₁ c₂)) hlinks)).and
      (guarded_found hfit hend)
  have hC' := (guarded_wellLinked.and (guarded_room (noOverflow_withoutPitch hfit p))).and
    (guarded_tables (C := fun t x => LinksHold t (x.action c₁ c₂)) hlinks')
  have herase := run_erase (R := fun s t => ∀ q, q ≠ p → voices q s = voices q t)
    (fun x => decide (x.ev.note ≠ p)) (fun o => o.sent.filter fun m => decide (m.note ≠ p))
    (fun _ _ => rfl) ?_ ?_ hC hC' (run_tables hrun).1
  · obtain ⟨t', outs', hrun', -, hsent⟩ := herase
    obtain ⟨s', hs', -⟩ := run_of_tables hrun'
    refine ⟨s', outs', hs', ?_⟩
    rw [otherMessages, otherMessages, List.filter_flatMap, List.filter_flatMap]
    exact hsent
  · -- a deleted pass changes no other voice and sends nothing for it
    rintro s₁ t₁ x s₂ o hR hskip ⟨⟨⟨hlinked, hroom⟩, hhold⟩, -⟩ hstep
    have hx : x.ev.note = p := by simpa using hskip
    refine ⟨fun q hq => ?_, ?_⟩
    · rw [voices_pass hstep hlinked hroom hhold q, voiceStep_of_ne (by rw [hx]; exact Ne.symm hq)]
      exact hR q hq
    · refine List.filter_eq_nil_iff.mpr fun m hm => ?_
      simp [sent_note hstep m hm, hx]
  · -- a pass that stays finds the same voices
    rintro s₁ t₁ x s₂ o hR hkeep ⟨⟨⟨hlinked, hroom⟩, hhold⟩, hfound⟩ ⟨⟨hlinked', hroom'⟩, hhold'⟩
      hstep
    have hx : x.ev.note ≠ p := by simpa using hkeep
    have hsent := sent_of_voices cfg hfound (hR x.ev.note hx)
    rw [hstep] at hsent
    rcases hstep' : tablesPass cfg c₁ c₂ t₁ x with err | ⟨t₂, o'⟩
    · rw [hstep'] at hsent
      cases hsent
    · rw [hstep'] at hsent
      have ho : o.sent = o'.sent := Except.ok.inj hsent
      refine ⟨t₂, o', rfl, fun q hq => ?_, by rw [ho]⟩
      rw [voices_pass hstep hlinked hroom hhold q, voices_pass hstep' hlinked' hroom' hhold' q,
        hR q hq]

theorem chordReversed_independent : PitchIndependent ⟨100, 10, 10, 5⟩ 0 0 60 chordReversed :=
  pitch_independent ⟨100, 10, 10, 5⟩ 0 0 60 chordReversed (by decide) (by decide)
    (guarded_of_tables (C := fun t x => LinksHold t (x.action 0 0)) (by decide))
    (guarded_of_tables (C := fun t x => LinksHold t (x.action 0 0)) (by decide))

/-- **A chord released in order**: the second pitch is not graded, but it is
without the first pitch. -/
theorem chord_not_independent :
    ¬ ∀ (cfg : Config) (c₁ c₂ p : ℤ) (ps : List Pass), NoOverflow (actions c₁ c₂ ps) →
      NoStray (actions c₁ c₂ ps) → PitchIndependent cfg c₁ c₂ p ps := by
  intro h
  obtain ⟨s, outs, hrun⟩ : ∃ s outs,
    run (midiEventPass ⟨100, 10, 10, 5⟩) (initial 0 0) chord = .ok (s, outs) :=
      run_ok (by decide) chord
  obtain ⟨s', outs', hrun', hsame⟩ :=
    h ⟨100, 10, 10, 5⟩ 0 0 60 chord (by decide) (by decide) s outs hrun
  have htables' : run (tablesPass ⟨100, 10, 10, 5⟩ 0 0) noTables (withoutPitch 60 chord) =
      .ok (⟨[], [], some 480⟩, [.silent, .silent, ⟨some (-2), some 480, []⟩,
        ⟨some 200, some 480, [⟨some 480, 64, .red⟩]⟩]) := by decide
  obtain ⟨-, rfl⟩ := run_unique hrun run_chord
  obtain ⟨-, rfl⟩ := run_unique hrun' htables'
  revert hsame
  decide

end MidiTraining
