/-
MidiTraining/Links.lean

Mutual links.

A note that waits for its partner's end should designate a live note of the
same pitch in the other table, which designates it back (`MutualLinks`).
`track_note_on` and `track_note_off` both break this:

* the linking loop has no `break`, so a new note is recorded by every
  unlinked note of its pitch; it takes one partner exactly when there is at
  most one such note (`trackNoteOn_takes_one_partner_iff`);
* the removal moves the last note without telling its partner; the links
  stay mutual exactly as long as no moved note waits (`links_mutual`).

`Paired` is the invariant behind the second result: it adds to the mutual
links that the partner of a waiting note waits too, that a note without
partner has no recorded end, and that the pitches of a table are distinct.
-/
import MidiTraining.Sounding

namespace MidiTraining

open SwapRemove FaultMachine

/-! ### Mutual links -/

/-- Every linked note of `T` whose partner's end is not recorded designates a
live note of its pitch in `R` that designates it back. -/
def Mutual (T R : Table) : Prop :=
  ∀ (i : ℕ) (e : Entry), T[i]? = some e → 0 ≤ e.link → e.lend = -1 →
    ∃ r : Entry, R[e.link.toNat]? = some r ∧ r.note = e.note ∧ r.link = i

instance (T R : Table) : Decidable (Mutual T R) :=
  decidable_of_iff (∀ x ∈ T.zipIdx, 0 ≤ x.1.link → x.1.lend = -1 →
    ∃ r ∈ R[x.1.link.toNat]?, r.note = x.1.note ∧ r.link = x.2) (by
      constructor
      · exact fun h i e hi => h (e, i) (List.mk_mem_zipIdx_iff_getElem?.mpr hi)
      · exact fun h x hx => h x.2 x.1 (List.mk_mem_zipIdx_iff_getElem?.mp hx))

/-- The links of both tables are mutual. -/
def MutualLinks (t : Tables) : Prop := ∀ σ, Mutual (t.get σ) (t.get σ.other)

theorem mutual_of_unlinked {T R : Table} (h : ∀ e ∈ T, e.link = -1) : Mutual T R := by
  intro i e hi hlink
  have := h e (List.mem_of_getElem? hi)
  omega

/-! ### A note-on takes one partner -/

/-- Where the linking loop leaves the entries of the other table. -/
theorem getElem?_map_linkTo {R : Table} {p k : ℤ} {j : ℕ} {r' : Entry} :
    (R.map (Entry.linkTo p k))[j]? = some r' ↔
      ∃ r, R[j]? = some r ∧
        ((r.free p = true ∧ r' = { r with link := k }) ∨ (r.free p = false ∧ r' = r)) := by
  rw [List.getElem?_map, Option.map_eq_some_iff]
  constructor
  · rintro ⟨r, hr, rfl⟩
    rcases hfree : r.free p with - | -
    · exact ⟨r, hr, Or.inr ⟨hfree, Entry.linkTo_of_not_free hfree⟩⟩
    · exact ⟨r, hr, Or.inl ⟨hfree, Entry.linkTo_of_free hfree⟩⟩
  · rintro ⟨r, hr, ⟨hfree, rfl⟩ | ⟨hfree, rfl⟩⟩
    · exact ⟨r, hr, Entry.linkTo_of_free hfree⟩
    · exact ⟨r', hr, Entry.linkTo_of_not_free hfree⟩

/-- A note that is linked is passed over by the linking loop. -/
theorem getElem?_map_linkTo_of_linked {R : Table} {p k : ℤ} {j : ℕ} {r : Entry}
    (h : R[j]? = some r) (hlink : r.link ≠ -1) : (R.map (Entry.linkTo p k))[j]? = some r := by
  rw [List.getElem?_map, h, Option.map_some, Entry.linkTo_of_link_ne hlink]

/-- What a note-on should do to the two tables: save the new note, and make
it and at most one unlinked note of its pitch partners of each other. -/
def TakesOnePartner (T R T' R' : Table) (note : ℤ) : Prop :=
  Mutual T' R' ∧ Mutual R' T' ∧
    ∃ e : Entry, T' = T ++ [e] ∧ e.note = note ∧
      ((e.link = -1 ∧ (∀ r ∈ R, r.free note = false) ∧ R' = R) ∨
        ∃ (n : ℕ) (r : Entry), R[n]? = some r ∧ r.free note = true ∧ e.link = (n : ℤ) ∧
          R' = R.set n { r with link := (T.length : ℤ) })

/-- No two entries of `R` are free for the pitch. -/
def AtMostOneFree (R : Table) (note : ℤ) : Prop :=
  ∀ (i j : ℕ) (r r' : Entry), R[i]? = some r → R[j]? = some r' → r.free note = true →
    r'.free note = true → i = j

instance (R : Table) (note : ℤ) : Decidable (AtMostOneFree R note) :=
  decidable_of_iff (∀ x ∈ R.zipIdx, ∀ y ∈ R.zipIdx, x.1.free note = true →
    y.1.free note = true → x.2 = y.2) (by
      constructor
      · exact fun h i j r r' hi hj => h (r, i) (List.mk_mem_zipIdx_iff_getElem?.mpr hi) (r', j)
          (List.mk_mem_zipIdx_iff_getElem?.mpr hj)
      · exact fun h x hx y hy => h x.2 y.2 x.1 y.1 (List.mk_mem_zipIdx_iff_getElem?.mp hx)
          (List.mk_mem_zipIdx_iff_getElem?.mp hy))

/-- The link of a new note is the one free entry of its pitch. -/
theorem newLink_of_free {R : Table} {note : ℤ} (h1 : AtMostOneFree R note) {j : ℕ} {r : Entry}
    (hr : R[j]? = some r) (hfree : r.free note = true) : newLink R note = j := by
  have hne : newLink R note ≠ -1 := by
    intro h
    rw [newLink_eq_neg_one_iff.mp h r (List.mem_of_getElem? hr)] at hfree
    cases hfree
  obtain ⟨h0, r', hr', hfree'⟩ := newLink_spec hne
  have := h1 _ _ _ _ hr' hr hfree' hfree
  omega

/-- With at most one free entry, the linking loop sets that one. -/
theorem map_linkTo_eq_set {R : Table} {note k : ℤ} (h1 : AtMostOneFree R note) {n : ℕ} {r : Entry}
    (hr : R[n]? = some r) (hfree : r.free note = true) :
    R.map (Entry.linkTo note k) = R.set n { r with link := k } := by
  apply List.ext_getElem?
  intro j
  rw [List.getElem?_map, List.getElem?_set]
  by_cases hj : n = j
  · subst hj
    rw [if_pos rfl, if_pos (List.getElem?_eq_some_iff.mp hr).1, hr, Option.map_some,
      Entry.linkTo_of_free hfree]
  · rw [if_neg hj]
    rcases hx : R[j]? with - | x
    · rfl
    · rcases hxfree : x.free note with - | -
      · rw [Option.map_some, Entry.linkTo_of_not_free hxfree]
      · exact absurd (h1 _ _ _ _ hr hx hfree hxfree) hj

/-- A note-on keeps the links mutual and takes one partner when it finds at
most one free entry. -/
theorem takesOnePartner_noteOn {T R : Table} (hT : Mutual T R) (hR : Mutual R T)
    (hroom : T.length < maxLength) {note : ℤ} (h1 : AtMostOneFree R note) (t tick : ℤ) :
    TakesOnePartner T R (noteOn T R note t tick).1 (noteOn T R note t tick).2 note := by
  rw [noteOn_of_room hroom]
  refine ⟨?_, ?_, { Entry.fresh note t tick with link := newLink R note }, rfl, rfl, ?_⟩
  · intro i e hi hlink hlend
    rcases getElem?_snoc_eq_some.mp hi with hold | ⟨rfl, rfl⟩
    · obtain ⟨r, hr, hnote, hback⟩ := hT i e hold hlink hlend
      have hne : r.link ≠ -1 := by omega
      exact ⟨r, getElem?_map_linkTo_of_linked hr hne, hnote, hback⟩
    · -- the new note designates the entry the loop has just linked to it
      have hne : newLink R note ≠ -1 := by
        have : 0 ≤ newLink R note := hlink
        omega
      obtain ⟨-, r, hr, hfree⟩ := newLink_spec hne
      exact ⟨_, getElem?_map_linkTo.mpr ⟨r, hr, Or.inl ⟨hfree, rfl⟩⟩,
        (Entry.free_iff.mp hfree).2, rfl⟩
  · intro j r' hj hlink hlend
    obtain ⟨r, hr, ⟨hfree, rfl⟩ | ⟨-, rfl⟩⟩ := getElem?_map_linkTo.mp hj
    · -- the entry the loop has just linked designates the new note
      refine ⟨_, getElem?_snoc_eq_some.mpr (Or.inr ⟨by simp, rfl⟩), ?_, newLink_of_free h1 hr hfree⟩
      exact (Entry.free_iff.mp hfree).2.symm
    · obtain ⟨x, hx, hnote, hback⟩ := hR j r' hr hlink hlend
      exact ⟨x, getElem?_snoc_eq_some.mpr (Or.inl hx), hnote, hback⟩
  · rcases hfind : lastIdx (Entry.free note) R with - | n
    · left
      have hnone := lastIdx_eq_none_iff.mp hfind
      have hid : ∀ r ∈ R, Entry.linkTo note T.length r = id r :=
        fun r hr => Entry.linkTo_of_not_free (hnone r hr)
      refine ⟨newLink_eq_neg_one_iff.mpr hnone, hnone, ?_⟩
      show R.map (Entry.linkTo note T.length) = R
      rw [List.map_congr_left hid, List.map_id]
    · right
      obtain ⟨r, hr, hfree⟩ := lastIdx_getElem? hfind
      exact ⟨n, r, hr, hfree, newLink_of_free h1 hr hfree, map_linkTo_eq_set h1 hr hfree⟩

/-- With two free entries the linking loop takes both. -/
theorem atMostOneFree_of_takesOnePartner {T R : Table} (hroom : T.length < maxLength)
    {note t tick : ℤ}
    (h : TakesOnePartner T R (noteOn T R note t tick).1 (noteOn T R note t tick).2 note) :
    AtMostOneFree R note := by
  rw [noteOn_of_room hroom] at h
  obtain ⟨-, -, e, -, -, hor⟩ := h
  rcases hor with ⟨-, hnone, -⟩ | ⟨n, r, hr, -, -, hset⟩
  · intro i j x x' hx hx' hfree hfree'
    rw [hnone x (List.mem_of_getElem? hx)] at hfree
    cases hfree
  · -- every free entry is changed, and only position `n` may be
    have hat (i : ℕ) (x : Entry) (hx : R[i]? = some x) (hfree : x.free note = true) : i = n := by
      by_contra hin
      have hmap : (R.map (Entry.linkTo note T.length))[i]? =
          some { x with link := (T.length : ℤ) } :=
        getElem?_map_linkTo.mpr ⟨x, hx, Or.inl ⟨hfree, rfl⟩⟩
      have hset' : R.map (Entry.linkTo note T.length) =
          R.set n { r with link := (T.length : ℤ) } := hset
      rw [hset', List.getElem?_set_ne (Ne.symm hin), hx] at hmap
      have hlink := congrArg (Option.map Entry.link) hmap
      have hfree := (Entry.free_iff.mp hfree).1
      simp at hlink
      omega
    intro i j x x' hx hx' hfree hfree'
    rw [hat i x hx hfree, hat j x' hx' hfree']

/-- A note-on on arrays, read as tables. -/
theorem trackNoteOn_entries {track ref : MIDItrack} (hT : track.InRange) (hR : ref.InRange)
    (note t tick : ℤ) : ∃ track' ref', trackNoteOn track ref note t tick = .ok (track', ref') ∧
      track'.entries = (noteOn track.entries ref.entries note t tick).1 ∧
      ref'.entries = (noteOn track.entries ref.entries note t tick).2 := by
  obtain ⟨track', ref', h, hH, hH', -, -⟩ :=
    trackNoteOn_eq (Holds.of_inRange hT) (Holds.of_inRange hR) note t tick
  exact ⟨track', ref', h, hH.entries, hH'.entries⟩

theorem MIDItrack.room_iff {track : MIDItrack} (hT : track.InRange) :
    track.length < maxLength ↔ track.entries.length < maxLength := by
  rw [(Holds.of_inRange hT).length]
  exact Nat.cast_lt

/-- **A new note takes at most one partner exactly when the other table has
at most one unlinked note of its pitch.** -/
theorem trackNoteOn_takes_one_partner_iff {track ref : MIDItrack} (hT : track.InRange)
    (hR : ref.InRange) (hroom : track.length < maxLength) (hm : Mutual track.entries ref.entries)
    (hm' : Mutual ref.entries track.entries) (note t tick : ℤ) :
    (∃ track' ref', trackNoteOn track ref note t tick = .ok (track', ref') ∧
        TakesOnePartner track.entries ref.entries track'.entries ref'.entries note) ↔
      AtMostOneFree ref.entries note := by
  have hroom' := (MIDItrack.room_iff hT).mp hroom
  obtain ⟨track', ref', hcall, he, he'⟩ := trackNoteOn_entries hT hR note t tick
  constructor
  · rintro ⟨a, b, hab, htakes⟩
    obtain ⟨rfl, rfl⟩ : track' = a ∧ ref' = b := by
      rw [hcall] at hab
      simpa using hab
    rw [he, he'] at htakes
    exact atMostOneFree_of_takesOnePartner hroom' htakes
  · intro h1
    refine ⟨track', ref', hcall, ?_⟩
    rw [he, he']
    exact takesOnePartner_noteOn hm hm' hroom' h1 t tick

/-- A note that both ports have struck, then two more notes of the score. -/
def partlyPlayed : List Pass :=
  [⟨true, 0, ⟨0, .noteon, 0, 60, 64, 0⟩⟩, ⟨true, 10, ⟨1, .noteon, 0, 60, 64, 0⟩⟩,
    ⟨true, 500, ⟨0, .noteon, 0, 64, 64, 480⟩⟩, ⟨true, 500, ⟨0, .noteon, 0, 67, 64, 480⟩⟩]

/-- The next note of the instrument becomes the partner of one of them. -/
theorem trackNoteOn_takes_struck_once :
    ∃ s outs, run (midiEventPass ⟨100, 10, 10, 5⟩) (initial 0 0) partlyPlayed = .ok (s, outs) ∧
      ∃ track' ref', trackNoteOn s.track2 s.track1 64 510 0 = .ok (track', ref') ∧
        TakesOnePartner s.track2.entries s.track1.entries track'.entries ref'.entries 64 := by
  have htables : run (tablesPass ⟨100, 10, 10, 5⟩ 0 0) noTables partlyPlayed =
      .ok (⟨[⟨60, 0, 0, 0, -1, -1, -1⟩, ⟨64, 500, 480, -1, -1, -1, -1⟩,
        ⟨67, 500, 480, -1, -1, -1, -1⟩], [⟨60, 10, 0, 0, -1, -1, -1⟩], none⟩,
        [.silent, .silent, .silent, .silent]) := by decide
  obtain ⟨s, hs, ht⟩ := run_of_tables htables
  obtain ⟨-, hwf⟩ := run_tables hs
  have h1 : s.track1.entries = [⟨60, 0, 0, 0, -1, -1, -1⟩, ⟨64, 500, 480, -1, -1, -1, -1⟩,
      ⟨67, 500, 480, -1, -1, -1, -1⟩] := congrArg Tables.score ht
  have h2 : s.track2.entries = [⟨60, 10, 0, 0, -1, -1, -1⟩] := congrArg Tables.inst ht
  refine ⟨s, _, hs,
    (trackNoteOn_takes_one_partner_iff hwf.range2 hwf.range1 ?_ ?_ ?_ 64 510 0).mpr ?_⟩
  · rw [MIDItrack.room_iff hwf.range2, h2]
    decide
  · rw [h1, h2]
    decide
  · rw [h1, h2]
    decide
  · rw [h1]
    decide

/-- A pitch struck twice in the score, at ticks `0` and `480`. -/
def struckTwice : List Pass :=
  [⟨true, 0, ⟨0, .noteon, 0, 60, 64, 0⟩⟩, ⟨true, 500, ⟨0, .noteon, 0, 60, 64, 480⟩⟩]

/-- **With two unlinked notes of its pitch, a new note takes both.** -/
theorem trackNoteOn_takes_both :
    ¬ ∀ (track ref : MIDItrack) (note t tick : ℤ), track.InRange → ref.InRange →
      track.length < maxLength → Mutual track.entries ref.entries →
      Mutual ref.entries track.entries →
      ∃ track' ref', trackNoteOn track ref note t tick = .ok (track', ref') ∧
        TakesOnePartner track.entries ref.entries track'.entries ref'.entries note := by
  intro h
  have htables : run (tablesPass ⟨100, 10, 10, 5⟩ 0 0) noTables struckTwice =
      .ok (⟨[⟨60, 0, 0, -1, -1, -1, -1⟩, ⟨60, 500, 480, -1, -1, -1, -1⟩], [], none⟩,
        [.silent, .silent]) := by decide
  obtain ⟨s, hs, ht⟩ := run_of_tables htables
  obtain ⟨-, hwf⟩ := run_tables hs
  have h1 : s.track1.entries =
      [⟨60, 0, 0, -1, -1, -1, -1⟩, ⟨60, 500, 480, -1, -1, -1, -1⟩] := congrArg Tables.score ht
  have h2 : s.track2.entries = [] := congrArg Tables.inst ht
  have hroom : s.track2.length < maxLength := by
    rw [MIDItrack.room_iff hwf.range2, h2]
    decide
  obtain ⟨track', ref', hcall, htakes⟩ := h s.track2 s.track1 60 600 0 hwf.range2 hwf.range1 hroom
    (mutual_of_unlinked (by simp [h2])) (mutual_of_unlinked (by simp [h1]))
  obtain ⟨a, b, hab, he, he'⟩ := trackNoteOn_entries hwf.range2 hwf.range1 60 600 0
  obtain ⟨rfl, rfl⟩ : a = track' ∧ b = ref' := by
    rw [hab] at hcall
    simpa using hcall
  rw [he, he', h1, h2] at htakes
  have h01 := atMostOneFree_of_takesOnePartner (by decide) htakes 0 1 _ _ rfl rfl rfl rfl
  cases h01

/-! ### The invariant of safe removals -/

/-- The links of `T` to `R`, when no moved note waits. -/
structure Paired (T R : Table) : Prop where
  links : Mutual T R
  /-- The partner of a waiting note waits. -/
  waits : ∀ (i : ℕ) (e r : Entry), T[i]? = some e → 0 ≤ e.link → e.lend = -1 →
    R[e.link.toNat]? = some r → r.lend = -1
  /-- A note without partner has no partner's end. -/
  unlinked : ∀ e ∈ T, e.link = -1 → e.lend = -1
  range : ∀ e ∈ T, -1 ≤ e.lend
  distinct : (T.map Entry.note).Nodup

theorem paired_nil : Paired [] [] where
  links := mutual_of_unlinked (by simp)
  waits := by simp
  unlinked := by simp
  range := by simp
  distinct := by simp

theorem Paired.atMostOneFree {T R : Table} (h : Paired R T) (note : ℤ) : AtMostOneFree R note := by
  intro i j r r' hi hj hfree hfree'
  have hri : (R.map Entry.note)[i]? = some note := by
    rw [List.getElem?_map, hi, Option.map_some, (Entry.free_iff.mp hfree).2]
  have hrj : (R.map Entry.note)[j]? = some note := by
    rw [List.getElem?_map, hj, Option.map_some, (Entry.free_iff.mp hfree').2]
  exact (List.getElem?_inj (List.getElem?_eq_some_iff.mp hri).1 h.distinct).mp
    (hri.trans hrj.symm)

/-- The side of the new note, after a note-on. -/
theorem paired_noteOn_track {T R : Table} (hT : Paired T R) (hR : Paired R T)
    (hroom : T.length < maxLength) {note : ℤ} (hfresh : ∀ e ∈ T, e.note ≠ note) (t tick : ℤ) :
    Paired (noteOn T R note t tick).1 (noteOn T R note t tick).2 := by
  obtain ⟨hlinks, -, -⟩ :=
    takesOnePartner_noteOn hT.links hR.links hroom (hR.atMostOneFree note) t tick
  rw [noteOn_of_room hroom] at hlinks ⊢
  refine ⟨hlinks, ?_, ?_, ?_, ?_⟩
  · intro i e r' hi hlink hlend hr'
    obtain ⟨r, hr, hor⟩ := getElem?_map_linkTo.mp hr'
    have hrlend : r.lend = -1 := by
      rcases getElem?_snoc_eq_some.mp hi with hold | ⟨rfl, rfl⟩
      · exact hT.waits i e r hold hlink hlend hr
      · have hne : newLink R note ≠ -1 := by
          have : 0 ≤ newLink R note := hlink
          omega
        obtain ⟨-, x, hx, hfree⟩ := newLink_spec hne
        obtain rfl : x = r := Option.some_inj.mp (hx.symm.trans hr)
        exact hR.unlinked x (List.mem_of_getElem? hx) (Entry.free_iff.mp hfree).1
    rcases hor with ⟨-, rfl⟩ | ⟨-, rfl⟩ <;> exact hrlend
  · intro e he hlink
    rcases List.mem_append.mp he with hold | hnew
    · exact hT.unlinked e hold hlink
    · obtain rfl := List.mem_singleton.mp hnew
      rfl
  · intro e he
    rcases List.mem_append.mp he with hold | hnew
    · exact hT.range e hold
    · obtain rfl := List.mem_singleton.mp hnew
      exact le_refl _
  · rw [List.map_append, List.nodup_append]
    refine ⟨hT.distinct, List.nodup_singleton _, ?_⟩
    intro p hp q hq
    obtain ⟨e, he, rfl⟩ := List.mem_map.mp hp
    obtain rfl : q = note := List.mem_singleton.mp hq
    exact hfresh e he

/-- The other side, after a note-on. -/
theorem paired_noteOn_ref {T R : Table} (hT : Paired T R) (hR : Paired R T)
    (hroom : T.length < maxLength) (note t tick : ℤ) :
    Paired (noteOn T R note t tick).2 (noteOn T R note t tick).1 := by
  obtain ⟨-, hlinks, -⟩ :=
    takesOnePartner_noteOn hT.links hR.links hroom (hR.atMostOneFree note) t tick
  rw [noteOn_of_room hroom] at hlinks ⊢
  refine ⟨hlinks, ?_, ?_, ?_, ?_⟩
  · intro j r' x hj hlink hlend hx
    obtain ⟨r, hr, ⟨-, rfl⟩ | ⟨-, rfl⟩⟩ := getElem?_map_linkTo.mp hj
    · -- it now designates the new note
      rcases getElem?_snoc_eq_some.mp hx with hold | ⟨-, rfl⟩
      · have := (List.getElem?_eq_some_iff.mp hold).1
        simp at this
      · rfl
    · rcases getElem?_snoc_eq_some.mp hx with hold | ⟨-, rfl⟩
      · exact hR.waits j r' x hr hlink hlend hold
      · rfl
  · intro r' hr' hlink
    obtain ⟨r, hr, rfl⟩ := List.mem_map.mp hr'
    rw [Entry.linkTo_lend]
    rcases hfree : r.free note with - | -
    · rw [Entry.linkTo_of_not_free hfree] at hlink
      exact hR.unlinked r hr hlink
    · exact hR.unlinked r hr (Entry.free_iff.mp hfree).1
  · intro r' hr'
    obtain ⟨r, hr, rfl⟩ := List.mem_map.mp hr'
    rw [Entry.linkTo_lend]
    exact hR.range r hr
  · rw [map_linkTo (Entry.linkTo_note _ _)]
    exact hR.distinct

/-- **Note-on.** -/
theorem paired_noteOn {T R : Table} (hT : Paired T R) (hR : Paired R T) {note : ℤ}
    (hfresh : ∀ e ∈ T, e.note ≠ note) (t tick : ℤ) :
    Paired (noteOn T R note t tick).1 (noteOn T R note t tick).2 ∧
      Paired (noteOn T R note t tick).2 (noteOn T R note t tick).1 := by
  by_cases hroom : T.length < maxLength
  · exact ⟨paired_noteOn_track hT hR hroom hfresh t tick, paired_noteOn_ref hT hR hroom note t tick⟩
  · rw [noteOn_of_full hroom]
    exact ⟨hT, hR⟩

/-- What a note-off does to the other table, when the entry it ends is the
first of its pitch. -/
def Sends (e : Entry) (t : ℤ) (R R' : Table) : Prop :=
  (e.Waiting ∧ R' = R.modify e.link.toNat (e.receive t)) ∨ (¬ e.Waiting ∧ R' = R)

/-- An entry whose partner's end is not recorded after the note-off is an
untouched one. -/
theorem Sends.untouched {e : Entry} {t : ℤ} {R R' : Table} (h : Sends e t R R') (ht : 0 ≤ t)
    {j : ℕ} {r : Entry} (hr : R'[j]? = some r) (hlend : r.lend = -1) :
    R[j]? = some r ∧ ¬ (e.Waiting ∧ e.link.toNat = j) := by
  rcases h with ⟨hw, rfl⟩ | ⟨hw, rfl⟩
  · by_cases hj : e.link.toNat = j
    · exfalso
      subst hj
      rw [List.getElem?_modify_eq] at hr
      obtain ⟨x, -, rfl⟩ := Option.map_eq_some_iff.mp hr
      have : t = -1 := hlend
      omega
    · rw [List.getElem?_modify_ne _ _ hj] at hr
      exact ⟨hr, fun hand => hj hand.2⟩
  · exact ⟨hr, fun hand => hw hand.1⟩

/-- Pitch and link of every entry stay. -/
theorem Sends.keeps {e : Entry} {t : ℤ} {R R' : Table} (h : Sends e t R R') {j : ℕ} {r : Entry}
    (hr : R[j]? = some r) : ∃ r', R'[j]? = some r' ∧ r'.note = r.note ∧ r'.link = r.link ∧
      (¬ (e.Waiting ∧ e.link.toNat = j) → r' = r) := by
  rcases h with ⟨hw, rfl⟩ | ⟨hw, rfl⟩
  · by_cases hj : e.link.toNat = j
    · refine ⟨e.receive t r, ?_, rfl, rfl, fun hnot => absurd ⟨hw, hj⟩ hnot⟩
      rw [hj, List.getElem?_modify_eq, hr]
      rfl
    · refine ⟨r, ?_, rfl, rfl, fun _ => rfl⟩
      rw [List.getElem?_modify_ne _ _ hj, hr]
  · exact ⟨r, hr, rfl, rfl, fun _ => rfl⟩

theorem Sends.mem {e : Entry} {t : ℤ} {R R' : Table} (h : Sends e t R R') {r' : Entry}
    (hr' : r' ∈ R') :
    r' ∈ R ∨ (e.Waiting ∧ ∃ r, R[e.link.toNat]? = some r ∧ r' = e.receive t r) := by
  rcases h with ⟨hw, rfl⟩ | ⟨-, rfl⟩
  · exact (mem_modify_receive hr').imp_right fun hr => ⟨hw, hr⟩
  · exact Or.inl hr'

theorem Sends.map_note {e : Entry} {t : ℤ} {R R' : Table} (h : Sends e t R R') :
    R'.map Entry.note = R.map Entry.note := by
  rcases h with ⟨-, rfl⟩ | ⟨-, rfl⟩
  · exact map_modify_receive (e.receive_note t) R _
  · rfl

section noteOff

variable {T R R' : Table} {n : ℕ} {e : Entry} {t : ℤ}

/-- The side of the ended note, after a note-off. -/
theorem paired_noteOff_track (hT : Paired T R) (he : T[n]? = some e) (hsends : Sends e t R R')
    (hmoved : n + 1 < T.length → ∀ z, T.getLast? = some z → ¬ z.Waiting) :
    Paired (swapRemove T n) R' := by
  have hn : n < T.length := (List.getElem?_eq_some_iff.mp he).1
  -- a waiting note has not moved
  have hstays {i : ℕ} {z : Entry} (hz : (swapRemove T n)[i]? = some z) (hlink : 0 ≤ z.link)
      (hlend : z.lend = -1) : T[i]? = some z ∧ i ≠ n := by
    rcases (getElem?_swapRemove_eq_some hn).mp hz with ⟨hin, -, hold⟩ | ⟨-, hlast, hz⟩
    · exact ⟨hold, hin⟩
    · exact absurd ⟨by omega, by omega⟩ (hmoved hlast z hz)
  refine ⟨?_, ?_, ?_, ?_, ?_⟩
  · intro i z hz hlink hlend
    obtain ⟨hold, -⟩ := hstays hz hlink hlend
    obtain ⟨r, hr, hnote, hback⟩ := hT.links i z hold hlink hlend
    obtain ⟨r', hr', hnote', hlink', -⟩ := hsends.keeps hr
    exact ⟨r', hr', hnote'.trans hnote, hlink'.trans hback⟩
  · intro i z r' hz hlink hlend hr'
    obtain ⟨hold, hin⟩ := hstays hz hlink hlend
    obtain ⟨r, hr, -, hback⟩ := hT.links i z hold hlink hlend
    obtain ⟨x, hx, -, -, hsame⟩ := hsends.keeps hr
    obtain rfl : x = r' := Option.some_inj.mp (hx.symm.trans hr')
    -- its partner is not the one that is written to, which designates `n`
    have hnot : ¬ (e.Waiting ∧ e.link.toNat = z.link.toNat) := by
      rintro ⟨hw, heq⟩
      have hlend := hT.range e (List.mem_of_getElem? he)
      obtain ⟨y, hy, -, hyback⟩ := hT.links n e he (by have := hw.1; omega) (by have := hw.2; omega)
      rw [heq, hr] at hy
      obtain rfl : r = y := Option.some_inj.mp hy
      omega
    rw [hsame hnot]
    exact hT.waits i z r hold hlink hlend hr
  · exact fun z hz => hT.unlinked z (mem_of_mem_swapRemove he hz)
  · exact fun z hz => hT.range z (mem_of_mem_swapRemove he hz)
  · have hperm := (swapRemove_perm he).map Entry.note
    exact (List.nodup_cons.mp (hperm.nodup_iff.mp hT.distinct)).2

/-- The other side, after a note-off. -/
theorem paired_noteOff_ref (hT : Paired T R) (hR : Paired R T) (he : T[n]? = some e)
    (hsends : Sends e t R R') (ht : 0 ≤ t)
    (hmoved : n + 1 < T.length → ∀ z, T.getLast? = some z → ¬ z.Waiting) :
    Paired R' (swapRemove T n) := by
  have hn : n < T.length := (List.getElem?_eq_some_iff.mp he).1
  -- the partner of a waiting note has neither ended nor moved
  have hpartner {j : ℕ} {r : Entry} (hr' : R'[j]? = some r) (hlink : 0 ≤ r.link)
      (hlend : r.lend = -1) : ∃ x, (swapRemove T n)[r.link.toNat]? = some x ∧ x.note = r.note ∧
        x.link = j ∧ x.lend = -1 := by
    obtain ⟨hr, hnot⟩ := hsends.untouched ht hr' hlend
    obtain ⟨x, hx, hnote, hback⟩ := hR.links j r hr hlink hlend
    have hxlend := hR.waits j r x hr hlink hlend hx
    have hwait : x.Waiting := ⟨by omega, by omega⟩
    have hne : r.link.toNat ≠ n := by
      intro hrn
      rw [hrn, he] at hx
      obtain rfl : e = x := Option.some_inj.mp hx
      exact hnot ⟨hwait, by omega⟩
    have hlt := (List.getElem?_eq_some_iff.mp hx).1
    have hbefore : r.link.toNat + 1 < T.length := by
      by_contra hlast
      have hlen : r.link.toNat = T.length - 1 := by omega
      rw [hlen, ← List.getLast?_eq_getElem?] at hx
      exact hmoved (by omega) x hx hwait
    exact ⟨x, (getElem?_swapRemove_eq_some hn).mpr (Or.inl ⟨hne, hbefore, hx⟩), hnote, hback,
      hxlend⟩
  refine ⟨?_, ?_, ?_, ?_, ?_⟩
  · intro j r hr hlink hlend
    obtain ⟨x, hx, hnote, hback, -⟩ := hpartner hr hlink hlend
    exact ⟨x, hx, hnote, hback⟩
  · intro j r x hr hlink hlend hx
    obtain ⟨y, hy, -, -, hylend⟩ := hpartner hr hlink hlend
    obtain rfl : y = x := Option.some_inj.mp (hy.symm.trans hx)
    exact hylend
  · intro r' hr' hlink
    rcases hsends.mem hr' with hr | ⟨hw, r, hr, rfl⟩
    · exact hR.unlinked r' hr hlink
    · -- the entry that is written to designates `n`
      have hlend := hT.range e (List.mem_of_getElem? he)
      obtain ⟨y, hy, -, hback⟩ := hT.links n e he (by have := hw.1; omega) (by have := hw.2; omega)
      obtain rfl : y = r := Option.some_inj.mp (hy.symm.trans hr)
      rw [Entry.receive_link] at hlink
      omega
  · intro r' hr'
    rcases hsends.mem hr' with hr | ⟨-, r, -, rfl⟩
    · exact hR.range r' hr
    · rw [Entry.receive_lend]
      omega
  · rw [hsends.map_note]
    exact hR.distinct

end noteOff

theorem sends_noteOff (cfg : Config) {T : Table} (R : Table) {note : ℤ} (t isInst : ℤ) {n : ℕ}
    {e : Entry} (h : firstAt (Entry.hasNote note) T = some (n, e)) :
    Sends e t R (noteOff cfg T R note t isInst).ref := by
  by_cases hw : e.Waiting
  · exact Or.inl ⟨hw, noteOff_ref_of_waiting cfg R t isInst h hw⟩
  · exact Or.inr ⟨hw, noteOff_ref_of_not_waiting cfg R t isInst h hw⟩

/-! ### Runs -/

/-- A note-off is read at a time that is not negative, and the entry it moves
does not wait. -/
def SafeRemoval (t : Tables) : Action → Prop
  | .noteOff σ p time => 0 ≤ time ∧ ∀ x ∈ firstAt (Entry.hasNote p) (t.get σ),
      x.1 + 1 < (t.get σ).length → ∀ z ∈ (t.get σ).getLast?, ¬ z.Waiting
  | _ => True

instance (t : Tables) : (a : Action) → Decidable (SafeRemoval t a)
  | .noteOff σ p time => inferInstanceAs (Decidable (0 ≤ time ∧
      ∀ x ∈ firstAt (Entry.hasNote p) (t.get σ), x.1 + 1 < (t.get σ).length →
        ∀ z ∈ (t.get σ).getLast?, ¬ z.Waiting))
  | .noteOn .. => isTrue trivial
  | .ignored => isTrue trivial

/-- A write through a link reaches the live partner of the entry that ends. -/
def WritesToPartner (t : Tables) : Action → Prop
  | .noteOff σ p _ => ∀ n e, firstAt (Entry.hasNote p) (t.get σ) = some (n, e) → e.Waiting →
      ∃ r, (t.get σ.other)[e.link.toNat]? = some r ∧ r.note = p ∧ r.link = n
  | _ => True

/-- **One pass** keeps the tables paired. -/
theorem tablesPass_paired {cfg : Config} {c₁ c₂ : ℤ} {s s' : Tables} {p : Pass} {o : Output}
    (h : tablesPass cfg c₁ c₂ s p = .ok (s', o)) (hfresh : Fresh s (p.action c₁ c₂))
    (hsafe : SafeRemoval s (p.action c₁ c₂)) (hs : ∀ σ, Paired (s.get σ) (s.get σ.other))
    (σ : Side) :
    Paired (s'.get σ) (s'.get σ.other) := by
  rcases tablesPass_cases h with ⟨side, note, t, k, tick, ha, rfl, -⟩ |
    ⟨side, note, t, tick, sent, ha, rfl, -, -⟩ | ⟨-, hsame, -⟩
  · rw [ha] at hfresh
    have hT := hs side
    have hR : Paired (s.get side.other) (s.get side) := by simpa using hs side.other
    refine Tables.forall_put ?_ ?_ σ
    · exact (paired_noteOn hT hR hfresh t k).1
    · exact (paired_noteOn hT hR hfresh t k).2
  · rw [ha] at hsafe
    obtain ⟨ht, hmoved⟩ := hsafe
    have hT := hs side
    have hR : Paired (s.get side.other) (s.get side) := by simpa using hs side.other
    rcases hfind : firstAt (Entry.hasNote note) (s.get side) with - | ⟨n, e⟩
    · simp only [noteOff, hfind]
      exact Tables.forall_put hT hR σ
    · have he := firstAt_getElem? hfind
      have hsends := sends_noteOff cfg (s.get side.other) t side.isInst hfind
      rw [noteOff_track cfg _ _ _ hfind]
      exact Tables.forall_put (paired_noteOff_track hT he hsends (hmoved (n, e) hfind))
        (paired_noteOff_ref hT hR he hsends ht (hmoved (n, e) hfind)) σ
  · rw [hsame, hsame]
    exact hs σ

section runs

variable {cfg : Config} {c₁ c₂ : ℤ} {ps : List Pass}

/-- **Every run** of safe removals keeps the tables paired. -/
theorem run_paired (hnew : NoRestrike (actions c₁ c₂ ps)) (hfit : NoOverflow (actions c₁ c₂ ps))
    (hsafe : Guarded (tablesPass cfg c₁ c₂) (fun t p => SafeRemoval t (p.action c₁ c₂)) noTables ps)
    {t : Tables} {outs : List Output} (h : run (tablesPass cfg c₁ c₂) noTables ps = .ok (t, outs)) :
    ∀ σ, Paired (t.get σ) (t.get σ.other) := by
  refine run_induction (fun _ _ t => ∀ σ, Paired (t.get σ) (t.get σ.other)) ?_ ?_
    ((guarded_fresh hfit hnew).and hsafe) h
  · intro σ
    rw [noTables_get, noTables_get]
    exact paired_nil
  · rintro past os t p t' o - ih ⟨hfresh, hs⟩ hstep
    exact tablesPass_paired hstep hfresh hs ih

theorem Paired.writesToPartner {t : Tables} (h : ∀ σ, Paired (t.get σ) (t.get σ.other))
    (a : Action) : WritesToPartner t a := by
  cases a with
  | noteOff σ note time =>
    intro n e hfind hw
    have he := firstAt_getElem? hfind
    have hrange := (h σ).range e (firstAt_mem hfind)
    have hlink : 0 ≤ e.link := by
      have := hw.1
      omega
    have hlend : e.lend = -1 := by
      have := hw.2
      omega
    obtain ⟨r, hr, hnote, hback⟩ := (h σ).links n e he hlink hlend
    exact ⟨r, hr, hnote.trans (Entry.hasNote_iff.mp (firstAt_test hfind)), hback⟩
  | noteOn => trivial
  | ignored => trivial

/-- Recorded ends are times of note-offs. -/
theorem run_lend_range (htime : ∀ p ∈ ps, 0 ≤ p.time) {t : Tables} {outs : List Output}
    (h : run (tablesPass cfg c₁ c₂) noTables ps = .ok (t, outs)) :
    ∀ σ, ∀ e ∈ t.get σ, -1 ≤ e.lend := by
  refine run_induction (fun _ _ t => ∀ σ, ∀ e ∈ t.get σ, -1 ≤ e.lend) ?_ ?_
    (guarded_of_forall htime) h
  · simp
  · intro past os s p s' o _ ih hp hstep
    refine tablesPass_forall hstep ih (fun _ _ he => he) ?_ ?_ ?_
    · intro side note t k l _
      exact le_refl _
    · intro side note t k l r _ hr _
      exact hr
    · intro side note t n e r ha _ _ _ _
      have := (Pass.of_noteOff ha).2.2
      rw [Entry.receive_lend]
      omega

/-- A removal that moves a waiting entry breaks its link. -/
theorem not_mutual_of_moved {T R R' : Table} {n : ℕ} {e z : Entry} {t : ℤ} (hm : Mutual T R)
    (hn : n + 1 < T.length) (hz : T.getLast? = some z) (hw : z.Waiting) (hlend : -1 ≤ z.lend)
    (hsends : Sends e t R R') : ¬ Mutual (swapRemove T n) R' := by
  intro hm'
  have hlink : 0 ≤ z.link := by
    have := hw.1
    omega
  have hend : z.lend = -1 := by
    have := hw.2
    omega
  have hat : (swapRemove T n)[n]? = some z :=
    (getElem?_swapRemove_eq_some (by omega)).mpr (Or.inr ⟨rfl, hn, hz⟩)
  -- before, the partner designates the last position; after, the freed one
  obtain ⟨r, hr, -, hback⟩ := hm (T.length - 1) z (List.getLast?_eq_getElem? ▸ hz) hlink hend
  obtain ⟨r', hr', -, hback'⟩ := hm' n z hat hlink hend
  obtain ⟨x, hx, -, hsame, -⟩ := hsends.keeps hr
  obtain rfl : x = r' := Option.some_inj.mp (hx.symm.trans hr')
  omega

/-- **The links are mutual in every state exactly when every removal is
safe.**  The writes of a note-off then reach the live partner of its pitch,
whichever comes next. -/
theorem links_mutual (cfg : Config) (c₁ c₂ : ℤ) (ps : List Pass)
    (hnew : NoRestrike (actions c₁ c₂ ps)) (hfit : NoOverflow (actions c₁ c₂ ps)) :
    (Guarded (midiEventPass cfg) (fun s p => SafeRemoval s.tables (p.action c₁ c₂))
        (initial c₁ c₂) ps →
      ∀ past s outs, past <+: ps →
        run (midiEventPass cfg) (initial c₁ c₂) past = .ok (s, outs) →
        MutualLinks s.tables ∧ ∀ a, WritesToPartner s.tables a) ∧
    ((∀ p ∈ ps, 0 ≤ p.time) → cfg.maxBadness ≠ 0 →
      (∀ past s outs, past <+: ps →
        run (midiEventPass cfg) (initial c₁ c₂) past = .ok (s, outs) → MutualLinks s.tables) →
      Guarded (midiEventPass cfg) (fun s p => SafeRemoval s.tables (p.action c₁ c₂))
        (initial c₁ c₂) ps) := by
  constructor
  · intro hsafe past s outs hp h
    have hpaired := run_paired (hnew.shorten (hp.map _)) (hfit.shorten (hp.map _))
      ((guarded_tables hsafe).shorten hp) (run_tables h).1
    exact ⟨fun σ => (hpaired σ).links, Paired.writesToPartner hpaired⟩
  · intro htime hbad hlinks past p hp s outs h
    have htables := (run_tables h).1
    rcases ha : p.action c₁ c₂ with _ | ⟨σ, note, t⟩ | _
    · trivial
    · have ht : 0 ≤ t := by
        rw [← (Pass.of_noteOff ha).2.2]
        exact htime p (hp.subset (by simp))
      refine ⟨ht, ?_⟩
      rintro ⟨n, e⟩ hfind hn z hz hw
      have hpast : past <+: ps := (List.prefix_append _ _).trans hp
      have hm := hlinks past s outs hpast h σ
      have hrange := run_lend_range (fun q hq => htime q (hpast.subset hq)) htables σ z
        (List.mem_of_mem_getLast? hz)
      -- the state after the removal
      obtain ⟨s', o, hs'⟩ := run_ok hbad (past ++ [p])
      have hm' := hlinks _ s' o hp hs' σ
      obtain ⟨s₀, outs₀, o', h₀, hstep, rfl⟩ := run_snoc_ok.mp hs'
      obtain ⟨rfl, rfl⟩ : s = s₀ ∧ outs = outs₀ := by
        rw [h] at h₀
        simpa using h₀
      have hsends := sends_noteOff cfg (s.tables.get σ.other) t σ.isInst hfind
      have hafter : s'.tables.get σ = swapRemove (s.tables.get σ) n ∧
          s'.tables.get σ.other =
            (noteOff cfg (s.tables.get σ) (s.tables.get σ.other) note t σ.isInst).ref := by
        obtain ⟨tick, sent, hs, -, -⟩ := tablesPass_of_noteOff (pass_tables h hstep).1 ha
        rw [hs, Tables.get_put, Tables.get_put_other]
        exact ⟨noteOff_track cfg _ _ _ hfind, rfl⟩
      rw [hafter.1, hafter.2] at hm'
      exact not_mutual_of_moved hm hn hz hw hrange hsends hm'
    · trivial

end runs

theorem chordReversed_mutual : ∃ s outs,
    run (midiEventPass ⟨100, 10, 10, 5⟩) (initial 0 0) (chordReversed.take 6) = .ok (s, outs) ∧
      MutualLinks s.tables := by
  have hsafe : Guarded (midiEventPass ⟨100, 10, 10, 5⟩)
      (fun s p => SafeRemoval s.tables (p.action 0 0)) (initial 0 0) chordReversed :=
    guarded_of_tables (C := fun t p => SafeRemoval t (p.action 0 0)) (by decide)
  obtain ⟨s, outs, h⟩ : ∃ s outs, run (midiEventPass ⟨100, 10, 10, 5⟩) (initial 0 0)
    (chordReversed.take 6) = .ok (s, outs) := run_ok (by decide) _
  exact ⟨s, outs, h, ((links_mutual _ 0 0 chordReversed (by decide) (by decide)).1 hsafe _ s outs
    (List.take_prefix 6 _) h).1⟩

/-- **Releasing the first note of a chord leaves the other one with a link
to a note that does not designate it.** -/
theorem chord_not_mutual :
    ¬ ∀ (cfg : Config) (c₁ c₂ : ℤ) (ps : List Pass) (s : State) (outs : List Output),
      NoRestrike (actions c₁ c₂ ps) → NoOverflow (actions c₁ c₂ ps) → (∀ p ∈ ps, 0 ≤ p.time) →
      run (midiEventPass cfg) (initial c₁ c₂) ps = .ok (s, outs) → MutualLinks s.tables := by
  intro h
  have htables : run (tablesPass ⟨100, 10, 10, 5⟩ 0 0) noTables (chord.take 5) =
      .ok (⟨[⟨64, 0, 480, 1, -1, -1, -1⟩],
        [⟨60, 10, 0, 0, 0, 500, 0⟩, ⟨64, 10, 0, 1, -1, -1, -1⟩], some 0⟩,
        [.silent, .silent, .silent, .silent, ⟨some (-2), some 0, []⟩]) := by decide
  obtain ⟨s, hs, ht⟩ := run_of_tables htables
  have hm := h _ 0 0 _ s _ (by decide) (by decide) (by decide) hs .score
  rw [ht] at hm
  -- the moved note `64` now stands at position `0`
  obtain ⟨r, hr, -, hback⟩ := hm 0 _ rfl (by decide) rfl
  obtain rfl : (⟨64, 10, 0, 1, -1, -1, -1⟩ : Entry) = r := Option.some_inj.mp hr
  cases hback

end MidiTraining
