/-
MidiTraining/Refine.lean

The arrays of `MidiTraining.Track` refine the tables of
`MidiTraining.Table`.

`MIDItrack.entries` reads the live part of the seven arrays as a list, and
`Holds a T` says that the arrays `a` hold the table `T`.  Each operation on
arrays is then the operation on tables: the seven writes of a note-on
append an entry, the linking loop maps over the other table, the scan of a
note-off finds the first entry of its pitch, the seven copies remove it, and
the three writes through its link reach the other table exactly when the
link designates a live entry — a dead slot takes them otherwise.

Only the note-off relies on the values of links: they index the other
table's arrays, so they must lie below `MAX_LENGTH`.  `WellLinked` is that
condition, and the note-on and the note-off preserve it (`wellLinked_noteOn`,
`wellLinked_noteOff`).
-/
import MidiTraining.Table
import Mathlib.Data.List.FinRange

namespace MidiTraining

open SwapRemove FaultMachine

/-! ### Reading the arrays as entries -/

namespace MIDItrack

/-- Slot `i` of the seven arrays. -/
def entry (a : MIDItrack) (i : Fin maxLength) : Entry where
  note := a.note i
  start := a.start i
  tick := a.tick i
  link := a.link i
  lstart := a.lstart i
  lend := a.lend i
  ltick := a.ltick i

/-- All the slots, live or dead. -/
def slots (a : MIDItrack) : List Entry := (List.finRange maxLength).map a.entry

/-- The live slots. -/
def entries (a : MIDItrack) : Table := a.slots.take a.length.toNat

/-- Overwrite slot `i` of the seven arrays. -/
def setEntry (a : MIDItrack) (i : Fin maxLength) (e : Entry) : MIDItrack where
  length := a.length
  channel := a.channel
  note := Function.update a.note i e.note
  start := Function.update a.start i e.start
  tick := Function.update a.tick i e.tick
  link := Function.update a.link i e.link
  lstart := Function.update a.lstart i e.lstart
  lend := Function.update a.lend i e.lend
  ltick := Function.update a.ltick i e.ltick

@[simp] theorem length_slots (a : MIDItrack) : a.slots.length = maxLength := by simp [slots]

theorem getElem?_slots (a : MIDItrack) {i : ℕ} (h : i < maxLength) :
    a.slots[i]? = some (a.entry ⟨i, h⟩) := by
  rw [List.getElem?_eq_getElem (by simpa using h)]
  simp [slots]

@[simp] theorem setEntry_length (a : MIDItrack) (i : Fin maxLength) (e : Entry) :
    (a.setEntry i e).length = a.length := rfl

@[simp] theorem setEntry_channel (a : MIDItrack) (i : Fin maxLength) (e : Entry) :
    (a.setEntry i e).channel = a.channel := rfl

theorem entry_setEntry (a : MIDItrack) (i j : Fin maxLength) (e : Entry) :
    (a.setEntry i e).entry j = if j = i then e else a.entry j := by
  by_cases h : j = i
  · subst h
    simp [entry, setEntry]
  · simp [entry, setEntry, h]

@[simp] theorem slots_setEntry (a : MIDItrack) (i : Fin maxLength) (e : Entry) :
    (a.setEntry i e).slots = a.slots.set i e := by
  apply List.ext_getElem?
  intro j
  by_cases hj : j < maxLength
  · rw [getElem?_slots _ hj, List.getElem?_set, getElem?_slots _ hj, entry_setEntry]
    by_cases hij : (i : ℕ) = j
    · subst hij
      simp
    · have : (⟨j, hj⟩ : Fin maxLength) ≠ i := fun h => hij (by rw [← h])
      simp [hij, this]
  · rw [List.getElem?_eq_none (by simpa using hj), List.getElem?_eq_none (by simpa using hj)]

@[simp] theorem entries_setEntry (a : MIDItrack) (i : Fin maxLength) (e : Entry) :
    (a.setEntry i e).entries = a.entries.set i e := by
  show (a.setEntry i e).slots.take a.length.toNat = (a.slots.take a.length.toNat).set i e
  rw [slots_setEntry, List.take_set]

/-- The length of the table is one the array allows. -/
def InRange (a : MIDItrack) : Prop := 0 ≤ a.length ∧ a.length ≤ maxLength

end MIDItrack

/-- The arrays `a` hold the table `T`. -/
structure Holds (a : MIDItrack) (T : Table) : Prop where
  length : a.length = T.length
  bound : T.length ≤ maxLength
  entries : a.entries = T

theorem Holds.of_inRange {a : MIDItrack} (h : a.InRange) : Holds a a.entries := by
  obtain ⟨h0, h1⟩ := h
  have hlen : a.entries.length = a.length.toNat := by
    simp [MIDItrack.entries]
    omega
  exact ⟨by omega, by omega, rfl⟩

theorem MIDItrack.entries_of_length_zero {a : MIDItrack} (h : a.length = 0) : a.entries = [] := by
  simp [MIDItrack.entries, h]

theorem MIDItrack.InRange.length_zero {a : MIDItrack} (hr : a.InRange) (h : a.entries = []) :
    a.length = 0 := by
  rw [(Holds.of_inRange hr).length, h]
  rfl

theorem Holds.inRange {a : MIDItrack} {T : Table} (h : Holds a T) : a.InRange := by
  have := h.length
  have := h.bound
  exact ⟨by omega, by omega⟩

theorem Holds.toNat_length {a : MIDItrack} {T : Table} (h : Holds a T) :
    a.length.toNat = T.length := by
  have := h.length
  omega

theorem Holds.take_slots {a : MIDItrack} {T : Table} (h : Holds a T) :
    a.slots.take T.length = T := by
  rw [← h.toNat_length]
  exact h.entries

/-- A live position holds the entry of the list. -/
theorem Holds.entry {a : MIDItrack} {T : Table} (h : Holds a T) {i : ℕ} {e : Entry}
    (he : T[i]? = some e) : ∃ hi : i < maxLength, a.entry ⟨i, hi⟩ = e := by
  have hlt : i < T.length := (List.getElem?_eq_some_iff.mp he).1
  have hi : i < maxLength := lt_of_lt_of_le hlt h.bound
  refine ⟨hi, ?_⟩
  rw [← h.take_slots, List.getElem?_take, if_pos hlt, MIDItrack.getElem?_slots a hi] at he
  simpa using he

/-- Overwriting a slot: a live one changes the table, a dead one does not. -/
theorem Holds.setEntry {a : MIDItrack} {T : Table} (h : Holds a T) (i : Fin maxLength)
    (e : Entry) : Holds (a.setEntry i e) (T.set i e) where
  length := by simpa using h.length
  bound := by simpa using h.bound
  entries := by rw [MIDItrack.entries_setEntry, h.entries]

/-- The table grows by the entry its first dead slot holds. -/
theorem Holds.grow {a : MIDItrack} {T : Table} (h : Holds a T) (hroom : T.length < maxLength) :
    Holds { a with length := a.length + 1 } (T ++ [a.entry ⟨T.length, hroom⟩]) where
  length := by
    have := h.length
    simp only [List.length_append, List.length_singleton]
    omega
  bound := by
    simp only [List.length_append, List.length_singleton]
    omega
  entries := by
    have hnat : (a.length + 1).toNat = T.length + 1 := by
      have := h.length
      omega
    show a.slots.take (a.length + 1).toNat = _
    rw [hnat, List.take_add_one, MIDItrack.getElem?_slots a hroom, h.take_slots]
    rfl

/-- The table shrinks by its last entry. -/
theorem Holds.shrink {a : MIDItrack} {T : Table} (h : Holds a T) (hne : T ≠ []) :
    Holds { a with length := a.length - 1 } T.dropLast where
  length := by
    have := h.length
    have : 0 < T.length := List.length_pos_iff.mpr hne
    simp only [List.length_dropLast]
    omega
  bound := by
    have := h.bound
    simp only [List.length_dropLast]
    omega
  entries := by
    have hnat : (a.length - 1).toNat = T.length - 1 := by
      have := h.length
      omega
    calc a.slots.take (a.length - 1).toNat
        = (a.slots.take T.length).take (T.length - 1) := by
          rw [hnat, List.take_take, Nat.min_eq_left (by omega)]
      _ = T.dropLast := by rw [h.take_slots, List.dropLast_eq_take]

/-! ### The linking loop -/

theorem MIDItrack.setEntry_link (a : MIDItrack) (i : Fin maxLength) (v : ℤ) :
    a.setEntry i { a.entry i with link := v } =
      { a with link := Function.update a.link i v } := by
  simp [MIDItrack.setEntry, MIDItrack.entry]

theorem linkStep_eq (track ref : MIDItrack) {n k : ℕ} (hn : n < maxLength) (hk : k < maxLength)
    (hlen : track.length = k) :
    linkStep (track, ref) n = .ok
      (if (ref.entry ⟨n, hn⟩).free (track.note ⟨k, hk⟩) then
        (track.setEntry ⟨k, hk⟩ { track.entry ⟨k, hk⟩ with link := n },
          ref.setEntry ⟨n, hn⟩ { ref.entry ⟨n, hn⟩ with link := k })
      else (track, ref)) := by
  have hread (a : Slots) : a.read track.length = .ok (a ⟨k, hk⟩) := by
    rw [hlen]; exact Slots.read_of_lt a hk
  have hwrite (a : Slots) (v : ℤ) :
      a.write track.length v = .ok (Function.update a ⟨k, hk⟩ v) := by
    rw [hlen]; exact Slots.write_of_lt a hk v
  rw [MIDItrack.setEntry_link, MIDItrack.setEntry_link, ← hlen]
  by_cases hlink : ref.link ⟨n, hn⟩ = -1
  · by_cases hnote : ref.note ⟨n, hn⟩ = track.note ⟨k, hk⟩
    · simp [linkStep, Slots.read_of_lt _ hn, Slots.write_of_lt _ hn, hread, hwrite, hlink, hnote,
        Entry.free, MIDItrack.entry, bind, Except.bind, pure, Except.pure]
    · simp [linkStep, Slots.read_of_lt _ hn, hread, hlink, hnote, Entry.free, MIDItrack.entry,
        bind, Except.bind, pure, Except.pure]
  · simp [linkStep, Slots.read_of_lt _ hn, hlink, Entry.free, MIDItrack.entry, bind, Except.bind,
      pure, Except.pure]

/-- The slot of a new note, once its link is `v`. -/
theorem MIDItrack.setEntry_link_setEntry_link (a : MIDItrack) (i : Fin maxLength) (v w : ℤ) :
    (a.setEntry i { a.entry i with link := v }).setEntry i
      { (a.setEntry i { a.entry i with link := v }).entry i with link := w } =
      a.setEntry i { a.entry i with link := w } := by
  simp [MIDItrack.setEntry_link]

/-- **The linking loop**, after its first `m` rounds: the new slot's link is
that of the last match so far, and exactly the matches so far are linked. -/
theorem linkLoop_eq {track ref : MIDItrack} {R : Table} (hR : Holds ref R) {k : ℕ}
    (hk : k < maxLength) (hlen : track.length = k) (hlink : track.link ⟨k, hk⟩ = -1) (m : ℕ)
    (hm : m ≤ R.length) :
    ∃ ref', (List.range m).foldlM linkStep (track, ref) = .ok
        (track.setEntry ⟨k, hk⟩
          { track.entry ⟨k, hk⟩ with link := newLink (R.take m) (track.note ⟨k, hk⟩) }, ref') ∧
      Holds ref' ((R.take m).map (Entry.linkTo (track.note ⟨k, hk⟩) k) ++ R.drop m) ∧
      ref'.channel = ref.channel := by
  induction m with
  | zero =>
    refine ⟨ref, ?_, by simpa using hR, rfl⟩
    have hself : track.setEntry ⟨k, hk⟩
        { track.entry ⟨k, hk⟩ with link := newLink (R.take 0) (track.note ⟨k, hk⟩) } = track := by
      rw [MIDItrack.setEntry_link]
      simp [newLink, lastIdx, ← hlink]
    rw [hself]
    rfl
  | succ m ih =>
    obtain ⟨ref', hloop, hH, hch⟩ := ih (by omega)
    have hmlt : m < R.length := by omega
    have hmax : m < maxLength := lt_of_lt_of_le hmlt hR.bound
    have hlen' : ((R.take m).map (Entry.linkTo (track.note ⟨k, hk⟩) k)).length = m := by
      simp [Nat.le_of_lt hmlt]
    have htake : R.take (m + 1) = R.take m ++ [R[m]] := (List.take_append_getElem hmlt).symm
    have hdrop : R.drop m = R[m] :: R.drop (m + 1) := List.drop_eq_getElem_cons hmlt
    have hget : ((R.take m).map (Entry.linkTo (track.note ⟨k, hk⟩) k) ++ R.drop m)[m]? =
        some R[m] := by
      rw [List.getElem?_append_right (by omega), hlen', hdrop]
      simp
    obtain ⟨_, hentry⟩ := hH.entry hget
    rw [List.range_succ, List.foldlM_append, hloop]
    simp only [List.foldlM_cons, List.foldlM_nil, bind, Except.bind]
    rw [linkStep_eq _ ref' hmax hk (by simpa using hlen), hentry]
    have hnote : (track.setEntry ⟨k, hk⟩ { track.entry ⟨k, hk⟩ with
        link := newLink (R.take m) (track.note ⟨k, hk⟩) }).note ⟨k, hk⟩ =
          track.note ⟨k, hk⟩ := by
      rw [MIDItrack.setEntry_link]
    rw [hnote, MIDItrack.setEntry_link_setEntry_link, htake]
    by_cases hfree : R[m].free (track.note ⟨k, hk⟩) = true
    · -- a match: both sides record it
      rw [if_pos hfree]
      refine ⟨ref'.setEntry ⟨m, hmax⟩ { R[m] with link := k }, ?_, ?_, hch⟩
      · simp only [newLink, lastIdx_snoc, hfree, if_true, List.length_take,
          Nat.min_eq_left (Nat.le_of_lt hmlt)]
        rfl
      · have hset := hH.setEntry ⟨m, hmax⟩ { R[m] with link := k }
        have hmid : ((R.take m).map (Entry.linkTo (track.note ⟨k, hk⟩) k) ++ R.drop m).set m
            { R[m] with link := k } = (R.take m).map (Entry.linkTo (track.note ⟨k, hk⟩) k) ++
              { R[m] with link := k } :: R.drop (m + 1) := by
          rw [List.set_append_right _ _ (by omega), hlen', hdrop, Nat.sub_self, List.set_cons_zero]
        rw [hmid] at hset
        rw [List.map_append, List.map_singleton, Entry.linkTo_of_free hfree, List.append_assoc]
        exact hset
    · -- no match: neither side changes
      rw [if_neg hfree]
      refine ⟨ref', ?_, ?_, hch⟩
      · simp only [newLink, lastIdx_snoc, hfree]
        rfl
      · rw [List.map_append, List.map_singleton, Entry.linkTo_of_not_free (by simpa using hfree),
          List.append_assoc, List.singleton_append, ← hdrop]
        exact hH

/-! ### `track_note_on` -/

/-- **The note-on on arrays is the note-on on tables.** -/
theorem trackNoteOn_eq {track ref : MIDItrack} {T R : Table} (hT : Holds track T)
    (hR : Holds ref R) (note t tick : ℤ) :
    ∃ track' ref', trackNoteOn track ref note t tick = .ok (track', ref') ∧
      Holds track' (noteOn T R note t tick).1 ∧ Holds ref' (noteOn T R note t tick).2 ∧
      track'.channel = track.channel ∧ ref'.channel = ref.channel := by
  have hlen := hT.length
  by_cases hroom : T.length < maxLength
  · rw [noteOn_of_room hroom]
    have hif : track.length < maxLength := by omega
    have hwrite (a : Slots) (v : ℤ) :
        a.write track.length v = .ok (Function.update a ⟨T.length, hroom⟩ v) := by
      rw [hlen]; exact Slots.write_of_lt a hroom v
    -- the seven writes save a fresh entry in the first dead slot
    have hsaved := hT.setEntry ⟨T.length, hroom⟩ (Entry.fresh note t tick)
    rw [List.set_eq_of_length_le (by simp)] at hsaved
    have hentry : (track.setEntry ⟨T.length, hroom⟩ (Entry.fresh note t tick)).entry
        ⟨T.length, hroom⟩ = Entry.fresh note t tick := by
      rw [MIDItrack.entry_setEntry, if_pos rfl]
    have hfields : (track.setEntry ⟨T.length, hroom⟩ (Entry.fresh note t tick)).note
        ⟨T.length, hroom⟩ = note ∧ (track.setEntry ⟨T.length, hroom⟩
          (Entry.fresh note t tick)).link ⟨T.length, hroom⟩ = -1 := by
      simp [MIDItrack.setEntry, Entry.fresh]
    have hsame : (track.setEntry ⟨T.length, hroom⟩ (Entry.fresh note t tick)).length =
        T.length := by
      simpa using hlen
    obtain ⟨ref', hloop, hH, hch⟩ := linkLoop_eq hR hroom hsame hfields.2 R.length le_rfl
    rw [hfields.1, hentry, List.take_length] at hloop
    rw [hfields.1, List.take_length, List.drop_length, List.append_nil] at hH
    have hgrow := (hsaved.setEntry ⟨T.length, hroom⟩
      { Entry.fresh note t tick with link := newLink R note })
    rw [List.set_eq_of_length_le (by simp)] at hgrow
    have hgrown := hgrow.grow hroom
    rw [MIDItrack.entry_setEntry, if_pos rfl] at hgrown
    refine ⟨_, ref', ?_, hgrown, hH, rfl, hch⟩
    simp only [trackNoteOn, hif, if_true, hwrite, bind, Except.bind, hR.toNat_length]
    have hloop' : List.foldlM linkStep (({ track with
        note := Function.update track.note ⟨T.length, hroom⟩ note
        start := Function.update track.start ⟨T.length, hroom⟩ t
        tick := Function.update track.tick ⟨T.length, hroom⟩ tick
        link := Function.update track.link ⟨T.length, hroom⟩ (-1)
        lstart := Function.update track.lstart ⟨T.length, hroom⟩ (-1)
        lend := Function.update track.lend ⟨T.length, hroom⟩ (-1)
        ltick := Function.update track.ltick ⟨T.length, hroom⟩ (-1) } : MIDItrack), ref)
        (List.range R.length) = _ := hloop
    rw [hloop']
    rfl
  · have hif : ¬ track.length < maxLength := by omega
    rw [noteOn_of_full hroom]
    exact ⟨track, ref, by simp [trackNoteOn, hif]; rfl, hT, hR, rfl, rfl⟩

/-! ### `track_note_off` -/

/-- The seven copies of a removal move the last entry into the freed slot. -/
theorem removeSlot_eq {track : MIDItrack} {T : Table} (hT : Holds track T) {n : ℕ} {e : Entry}
    (hn : T[n]? = some e) :
    ∃ track', removeSlot track n = .ok track' ∧ Holds track' (swapRemove T n) ∧
      track'.channel = track.channel := by
  have hnlt : n < T.length := (List.getElem?_eq_some_iff.mp hn).1
  have hmax : n < maxLength := lt_of_lt_of_le hnlt hT.bound
  obtain ⟨T', z, rfl⟩ : ∃ T' z, T = T' ++ [z] := by
    rcases List.eq_nil_or_concat T with rfl | ⟨T', z, rfl⟩
    · simp at hnlt
    · exact ⟨T', z, List.concat_eq_append⟩
  obtain ⟨last, hlast⟩ : ∃ last, last = T'.length := ⟨_, rfl⟩
  have hlen : track.length - 1 = (last : ℤ) := by
    have := hT.length
    simp only [List.length_append, List.length_singleton] at this
    omega
  obtain ⟨hlastmax, rfl⟩ := hT.entry (i := last) (e := z) (by simp [hlast])
  have hH := (hT.setEntry ⟨n, hmax⟩ (track.entry ⟨last, hlastmax⟩)).shrink (by simp)
  refine ⟨{ track.setEntry ⟨n, hmax⟩ (track.entry ⟨last, hlastmax⟩) with
    length := track.length - 1 }, ?_, by rw [swapRemove_snoc]; exact hH, rfl⟩
  simp only [removeSlot, hlen, Slots.read_of_lt _ hlastmax, Slots.write_of_lt _ hmax, bind,
    Except.bind, pure, Except.pure]
  rfl

/-- The branch on the link and the recorded end: a write through a link that
designates no live entry lands in a dead slot. -/
theorem gradeSlot_eq (cfg : Config) {track ref : MIDItrack} {T R : Table} (hT : Holds track T)
    (hR : Holds ref R) (t isInst : ℤ) {n : ℕ} {e : Entry} (hn : T[n]? = some e)
    (hlink : e.link < maxLength) :
    ∃ ref', gradeSlot cfg track ref t isInst n = .ok ((gradeEntry cfg R t isInst e).1, ref') ∧
      Holds ref' (gradeEntry cfg R t isInst e).2 ∧ ref'.channel = ref.channel := by
  obtain ⟨hmax, rfl⟩ := hT.entry hn
  by_cases hlinked : track.link ⟨n, hmax⟩ > -1
  · by_cases hended : track.lend ⟨n, hmax⟩ > -1
    · rw [gradeEntry_of_answered cfg R t isInst ⟨hlinked, hended⟩]
      refine ⟨ref, ?_, hR, rfl⟩
      simp [gradeSlot, Slots.read_of_lt _ hmax, hlinked, hended, MIDItrack.entry, bind, Except.bind,
        pure, Except.pure]
    · obtain ⟨j, hj⟩ : ∃ j : ℕ, track.link ⟨n, hmax⟩ = j := ⟨(track.link ⟨n, hmax⟩).toNat, by omega⟩
      have hjmax : j < maxLength := by
        have : track.link ⟨n, hmax⟩ < maxLength := hlink
        omega
      have hmod : R.set j ((track.entry ⟨n, hmax⟩).receive t (ref.entry ⟨j, hjmax⟩)) =
          R.modify j ((track.entry ⟨n, hmax⟩).receive t) := by
        apply List.ext_getElem?
        intro i
        rw [List.getElem?_set, List.getElem?_modify]
        by_cases hij : j = i
        · subst hij
          rcases hr : R[j]? with - | r
          · simp [List.getElem?_eq_none_iff.mp hr]
          · obtain ⟨_, rfl⟩ := hR.entry hr
            simp [(List.getElem?_eq_some_iff.mp hr).1]
        · simp [hij]
      have hgrade : gradeEntry cfg R t isInst (track.entry ⟨n, hmax⟩) =
          (-2, R.modify j ((track.entry ⟨n, hmax⟩).receive t)) := by
        have hnat : (track.entry ⟨n, hmax⟩).link.toNat = j := by
          show (track.link ⟨n, hmax⟩).toNat = j
          omega
        rw [gradeEntry_of_waiting cfg R t isInst ⟨hlinked, hended⟩, hnat]
      rw [hgrade]
      refine ⟨ref.setEntry ⟨j, hjmax⟩ ((track.entry ⟨n, hmax⟩).receive t (ref.entry ⟨j, hjmax⟩)),
        ?_, ?_, rfl⟩
      · have hj0 : (j : ℤ) > -1 := by omega
        simp only [gradeSlot, Slots.read_of_lt _ hmax, hj, hj0, if_true, Slots.write_of_lt _ hjmax,
          bind, Except.bind, pure, Except.pure, hended, if_false]
        simp [MIDItrack.setEntry, Entry.receive, MIDItrack.entry]
      · rw [← hmod]
        exact hR.setEntry ⟨j, hjmax⟩ _
  · rw [gradeEntry_of_unlinked cfg R t isInst hlinked]
    refine ⟨ref, ?_, hR, rfl⟩
    simp [gradeSlot, Slots.read_of_lt _ hmax, hlinked, bind, Except.bind, pure, Except.pure]

/-! ### Links stay inside the arrays -/

/-- Every live link designates a slot of the other table's arrays. -/
def WellLinked (T : Table) : Prop := ∀ e ∈ T, -1 ≤ e.link ∧ e.link < maxLength

theorem wellLinked_noteOn {T R : Table} (hT : WellLinked T) (hR : WellLinked R)
    (hbound : R.length ≤ maxLength) (note t tick : ℤ) :
    WellLinked (noteOn T R note t tick).1 ∧ WellLinked (noteOn T R note t tick).2 := by
  by_cases hroom : T.length < maxLength
  · rw [noteOn_of_room hroom]
    constructor
    · intro e he
      rcases List.mem_append.mp he with he | he
      · exact hT e he
      · obtain rfl := List.mem_singleton.mp he
        refine ⟨newLink_ge R note, ?_⟩
        show newLink R note < maxLength
        rcases newLink_lt R note with h | h <;> omega
    · intro e he
      obtain ⟨r, hr, rfl⟩ := List.mem_map.mp he
      by_cases hfree : r.free note = true
      · rw [Entry.linkTo_of_free hfree]
        show (-1 : ℤ) ≤ T.length ∧ (T.length : ℤ) < maxLength
        omega
      · rw [Entry.linkTo_of_not_free (by simpa using hfree)]
        exact hR r hr
  · rw [noteOn_of_full hroom]
    exact ⟨hT, hR⟩

theorem WellLinked.modify_receive {R : Table} (hR : WellLinked R) (j : ℕ) (e : Entry) (t : ℤ) :
    WellLinked (R.modify j (e.receive t)) := by
  intro r hr
  rcases mem_modify_receive hr with hr | ⟨r₀, hr₀, rfl⟩
  · exact hR r hr
  · simpa using hR r₀ (List.mem_of_getElem? hr₀)

theorem WellLinked.swapRemove {T : Table} (hT : WellLinked T) {n : ℕ} {e : Entry}
    (hn : T[n]? = some e) : WellLinked (swapRemove T n) :=
  fun _ hr => hT _ (mem_of_mem_swapRemove hn hr)

theorem wellLinked_noteOff (cfg : Config) {T R : Table} (hT : WellLinked T) (hR : WellLinked R)
    (note t isInst : ℤ) :
    WellLinked (noteOff cfg T R note t isInst).track ∧
      WellLinked (noteOff cfg T R note t isInst).ref := by
  rcases noteOff_cases cfg T R note t isInst with ⟨-, h⟩ | ⟨n, e, hfirst, h⟩
  · rw [h]
    exact ⟨hT, hR⟩
  · have hrem := hT.swapRemove (firstAt_getElem? hfirst)
    rcases h with ⟨-, h⟩ | ⟨-, h⟩ | ⟨-, h⟩ <;> rw [h]
    · exact ⟨hrem, hR⟩
    · exact ⟨hrem, hR⟩
    · exact ⟨hrem, hR.modify_receive _ e t⟩

/-! ### The scan -/

/-- The found branch, for the slot of a live entry. -/
theorem endSlot_eq (cfg : Config) {track ref : MIDItrack} {T R : Table} (hT : Holds track T)
    (hR : Holds ref R) (t isInst : ℤ) {n : ℕ} {e : Entry} (hn : T[n]? = some e)
    (hlink : e.link < maxLength) :
    ∃ track' ref', endSlot cfg track ref t isInst n =
        .ok ⟨(gradeEntry cfg R t isInst e).1, some (tickOf isInst e), track', ref'⟩ ∧
      Holds track' (swapRemove T n) ∧ Holds ref' (gradeEntry cfg R t isInst e).2 ∧
      track'.channel = track.channel ∧ ref'.channel = ref.channel := by
  obtain ⟨track', hrem, hT', hch⟩ := removeSlot_eq hT hn
  obtain ⟨ref', hgrade, hR', hch'⟩ := gradeSlot_eq cfg hT hR t isInst hn hlink
  refine ⟨track', ref', ?_, hT', hR', hch, hch'⟩
  have hltick : track.ltick.read n = .ok e.ltick := by
    obtain ⟨hmax, rfl⟩ := hT.entry hn
    exact Slots.read_of_lt _ hmax
  have htick : track.tick.read n = .ok e.tick := by
    obtain ⟨hmax, rfl⟩ := hT.entry hn
    exact Slots.read_of_lt _ hmax
  simp only [endSlot, hgrade, hltick, htick, hrem, tickOf, bind, Except.bind, pure, Except.pure]
  split <;> rfl

/-- **A scan** over the slots, for the first entry of a pitch. -/
theorem scan_eq {ε α : Type*} {T : Table} {note : ℤ} (scan : List ℕ → Except ε α)
    (found : ℕ → Except ε α) (hcons : ∀ n ns (h : n < T.length),
      scan (n :: ns) = if note = T[n].note then found n else scan ns) :
    scan (List.range T.length) =
      match firstAt (Entry.hasNote note) T with
      | none => scan []
      | some (n, _) => found n := by
  have hfrom (m j : ℕ) (hj : j + m = T.length) : scan (List.range' j m) =
      match firstAt (Entry.hasNote note) (T.drop j) with
      | none => scan []
      | some (n, _) => found (j + n) := by
    induction m generalizing j with
    | zero =>
      rw [List.drop_eq_nil_of_le (by omega)]
      rfl
    | succ m ih =>
      have hjlt : j < T.length := by omega
      rw [List.range'_succ, List.drop_eq_getElem_cons hjlt, hcons j _ hjlt]
      by_cases hnote : note = T[j].note
      · simp [firstAt, hnote]
      · have hne : Entry.hasNote note T[j] = false := by simpa using Ne.symm hnote
        rw [if_neg hnote, ih (j + 1) (by omega)]
        rcases e : firstAt (Entry.hasNote note) (T.drop (j + 1)) with - | ⟨n, x⟩
        · simp [firstAt, hne, e]
        · simp [firstAt, hne, e, Nat.add_right_comm, Nat.add_assoc]
  rw [List.range_eq_range', hfrom T.length 0 (by omega), List.drop_zero]
  simp only [Nat.zero_add]

theorem Holds.read_note {a : MIDItrack} {T : Table} (h : Holds a T) {n : ℕ} (hn : n < T.length) :
    a.note.read n = .ok T[n].note := by
  obtain ⟨hmax, hentry⟩ := h.entry (List.getElem?_eq_getElem hn)
  rw [Slots.read_of_lt _ hmax, ← hentry]
  rfl

/-- **The scan** ends the first entry of the pitch. -/
theorem scanOff_eq (cfg : Config) {track : MIDItrack} (ref : MIDItrack) {T : Table}
    (hT : Holds track T) (note t isInst : ℤ) :
    scanOff cfg track ref note t isInst (List.range T.length) =
      match firstAt (Entry.hasNote note) T with
      | none => .ok ⟨-1, none, track, ref⟩
      | some (n, _) => endSlot cfg track ref t isInst n := by
  rw [scan_eq (scanOff cfg track ref note t isInst) (endSlot cfg track ref t isInst)]
  · rfl
  · intro n ns hn
    simp only [scanOff, hT.read_note hn, bind, Except.bind]

/-- **The note-off on arrays is the note-off on tables.** -/
theorem trackNoteOff_eq (cfg : Config) {track ref : MIDItrack} {T R : Table} (hT : Holds track T)
    (hR : Holds ref R) (hlinks : WellLinked T) (note t isInst : ℤ) :
    ∃ track' ref', trackNoteOff cfg track ref note t isInst =
        .ok ⟨(noteOff cfg T R note t isInst).badness, (noteOff cfg T R note t isInst).tick,
          track', ref'⟩ ∧
      Holds track' (noteOff cfg T R note t isInst).track ∧
      Holds ref' (noteOff cfg T R note t isInst).ref ∧
      track'.channel = track.channel ∧ ref'.channel = ref.channel := by
  unfold trackNoteOff
  rw [hT.toNat_length, scanOff_eq cfg ref hT]
  rcases e : firstAt (Entry.hasNote note) T with - | ⟨n, x⟩
  · simp only [noteOff, e]
    exact ⟨track, ref, rfl, hT, hR, rfl, rfl⟩
  · obtain ⟨track', ref', hend, hrest⟩ := endSlot_eq cfg hT hR t isInst (firstAt_getElem? e)
      (hlinks x (firstAt_mem e)).2
    simp only [noteOff, e]
    exact ⟨track', ref', hend, hrest⟩

/-! ### A pass over the arrays is a pass over the tables -/

/-- Lengths within the arrays, live links within the arrays. -/
structure State.WellFormed (s : State) : Prop where
  range1 : s.track1.InRange
  range2 : s.track2.InRange
  links1 : WellLinked s.track1.entries
  links2 : WellLinked s.track2.entries

/-- The live contents of a state. -/
def State.tables (s : State) : Tables := ⟨s.track1.entries, s.track2.entries, s.tick⟩

/-- The state `s`, whose tables listen to the channels `c₁` and `c₂`, holds
the tables `t`. -/
structure Represents (c₁ c₂ : ℤ) (s : State) (t : Tables) : Prop where
  wf : s.WellFormed
  channel1 : s.track1.channel = c₁
  channel2 : s.track2.channel = c₂
  tables : s.tables = t

/-- A state of two tables that hold `T₁` and `T₂`. -/
theorem represents_of_holds {a₁ a₂ : MIDItrack} {T₁ T₂ : Table} (h₁ : Holds a₁ T₁)
    (h₂ : Holds a₂ T₂) (hl₁ : WellLinked T₁) (hl₂ : WellLinked T₂) (tick : Option ℤ) :
    Represents a₁.channel a₂.channel ⟨a₁, a₂, tick⟩ ⟨T₁, T₂, tick⟩ where
  wf := ⟨h₁.inRange, h₂.inRange, h₁.entries.symm ▸ hl₁, h₂.entries.symm ▸ hl₂⟩
  channel1 := rfl
  channel2 := rfl
  tables := by
    rw [State.tables, h₁.entries, h₂.entries]

theorem Represents.with_tick {c₁ c₂ : ℤ} {s : State} {t : Tables} (h : Represents c₁ c₂ s t)
    (tick : Option ℤ) :
    Represents c₁ c₂ { s with tick := tick } { t with tick := tick } where
  wf := ⟨h.wf.range1, h.wf.range2, h.wf.links1, h.wf.links2⟩
  channel1 := h.channel1
  channel2 := h.channel2
  tables := by
    obtain ⟨-, -, -, rfl⟩ := h
    rfl

/-- A note-off on either port: the call on arrays is the call on tables, and
both send the same. -/
theorem noteOff_agree (cfg : Config) {track ref : MIDItrack} (hT : track.InRange)
    (hR : ref.InRange) (hlT : WellLinked track.entries) (hlR : WellLinked ref.entries)
    (note t isInst : ℤ) :
    ∃ track' ref', trackNoteOff cfg track ref note t isInst =
        .ok ⟨(noteOff cfg track.entries ref.entries note t isInst).badness,
          (noteOff cfg track.entries ref.entries note t isInst).tick, track', ref'⟩ ∧
      Holds track' (noteOff cfg track.entries ref.entries note t isInst).track ∧
      Holds ref' (noteOff cfg track.entries ref.entries note t isInst).ref ∧
      WellLinked (noteOff cfg track.entries ref.entries note t isInst).track ∧
      WellLinked (noteOff cfg track.entries ref.entries note t isInst).ref ∧
      track'.channel = track.channel ∧ ref'.channel = ref.channel := by
  obtain ⟨track', ref', hcall, hT', hR', hc⟩ :=
    trackNoteOff_eq cfg (Holds.of_inRange hT) (Holds.of_inRange hR) hlT note t isInst
  obtain ⟨hlT', hlR'⟩ := wellLinked_noteOff cfg hlT hlR note t isInst
  exact ⟨track', ref', hcall, hT', hR', hlT', hlR', hc⟩

/-- A note-on on either port. -/
theorem noteOn_agree {track ref : MIDItrack} (hT : track.InRange) (hR : ref.InRange)
    (hlT : WellLinked track.entries) (hlR : WellLinked ref.entries) (note t tick : ℤ) :
    ∃ track' ref', trackNoteOn track ref note t tick = .ok (track', ref') ∧
      Holds track' (noteOn track.entries ref.entries note t tick).1 ∧
      Holds ref' (noteOn track.entries ref.entries note t tick).2 ∧
      WellLinked (noteOn track.entries ref.entries note t tick).1 ∧
      WellLinked (noteOn track.entries ref.entries note t tick).2 ∧
      track'.channel = track.channel ∧ ref'.channel = ref.channel := by
  obtain ⟨track', ref', hcall, hT', hR', hc⟩ :=
    trackNoteOn_eq (Holds.of_inRange hT) (Holds.of_inRange hR) note t tick
  obtain ⟨hlT', hlR'⟩ :=
    wellLinked_noteOn hlT hlR (Holds.of_inRange hR).bound note t tick
  exact ⟨track', ref', hcall, hT', hR', hlT', hlR', hc⟩

/-- **One pass**: arrays and tables fault alike, show the same and stay
related. -/
theorem pass_agree (cfg : Config) (c₁ c₂ : ℤ) (s : State) (t : Tables) (p : Pass)
    (h : Represents c₁ c₂ s t) :
    Agree (Represents c₁ c₂) (midiEventPass cfg s p) (tablesPass cfg c₁ c₂ t p) := by
  have hskip := h.with_tick (if p.first then none else s.tick)
  obtain ⟨a₁, a₂, tick⟩ := s
  obtain ⟨⟨hr1, hr2, hl1, hl2⟩, rfl, rfl, rfl⟩ := h
  by_cases hport0 : p.ev.port = 0
  · by_cases hch : p.ev.channel = a₁.channel
    · by_cases hoff : p.ev.isNoteOff = true
      · -- a note-off of the score
        obtain ⟨a₁', a₂', hcall, hH1, hH2, hw1, hw2, hc1, hc2⟩ :=
          noteOff_agree cfg hr1 hr2 hl1 hl2 p.ev.note p.time (-1)
        simp only [midiEventPass, tablesPass, Pass.action, Pass.actionOn, hport0, hch, hoff,
          if_true, hcall, Side.isInst, State.tables, Tables.get, Side.other, sendMessage, bind,
          Except.bind]
        rcases sendScore cfg _ _ _ with e | sent
        · rfl
        · exact ⟨hc1 ▸ hc2 ▸ represents_of_holds hH1 hH2 hw1 hw2 _, rfl⟩
      · by_cases hon : p.ev.type = .noteon
        · -- a note-on of the score
          obtain ⟨a₁', a₂', hcall, hH1, hH2, hw1, hw2, hc1, hc2⟩ :=
            noteOn_agree hr1 hr2 hl1 hl2 p.ev.note p.time p.ev.tick
          simp only [midiEventPass, tablesPass, Pass.action, Pass.actionOn, hport0, hch, hoff, hon,
            if_true, hcall, State.tables, Tables.get, Side.other, bind, Except.bind]
          exact ⟨hc1 ▸ hc2 ▸ represents_of_holds hH1 hH2 hw1 hw2 _, rfl⟩
        · simp only [midiEventPass, tablesPass, Pass.action, Pass.actionOn, hport0, hch, hoff, hon,
            if_true]
          exact ⟨hskip, rfl⟩
    · simp only [midiEventPass, tablesPass, Pass.action, hport0, hch, if_true]
      exact ⟨hskip, rfl⟩
  · by_cases hport1 : p.ev.port = 1
    · by_cases hch : p.ev.channel = a₂.channel
      · by_cases hoff : p.ev.isNoteOff = true
        · -- a note-off of the instrument
          obtain ⟨a₂', a₁', hcall, hH2, hH1, hw2, hw1, hc2, hc1⟩ :=
            noteOff_agree cfg hr2 hr1 hl2 hl1 p.ev.note p.time 1
          simp only [midiEventPass, tablesPass, Pass.action, Pass.actionOn, hport1, one_ne_zero,
            if_false, hch, hoff, if_true, hcall, Side.isInst, State.tables, Tables.get, Side.other,
            sendMessage, bind, Except.bind]
          rcases sendInst cfg _ _ _ with e | sent
          · rfl
          · exact ⟨hc1 ▸ hc2 ▸ represents_of_holds hH1 hH2 hw1 hw2 _, rfl⟩
        · by_cases hon : p.ev.type = .noteon
          · -- a note-on of the instrument
            obtain ⟨a₂', a₁', hcall, hH2, hH1, hw2, hw1, hc2, hc1⟩ :=
              noteOn_agree hr2 hr1 hl2 hl1 p.ev.note p.time 0
            simp only [midiEventPass, tablesPass, Pass.action, Pass.actionOn, hport1, one_ne_zero,
              if_false, hch, hoff, hon, if_true, hcall, State.tables, Tables.get, Side.other, bind,
              Except.bind]
            exact ⟨hc1 ▸ hc2 ▸ represents_of_holds hH1 hH2 hw1 hw2 _, rfl⟩
          · simp only [midiEventPass, tablesPass, Pass.action, Pass.actionOn, hport1, one_ne_zero,
              if_false, hch, hoff, hon, if_true]
            exact ⟨hskip, rfl⟩
      · simp only [midiEventPass, tablesPass, Pass.action, hport1, one_ne_zero, if_false, hch,
          if_true]
        exact ⟨hskip, rfl⟩
    · simp only [midiEventPass, tablesPass, Pass.action, hport0, hport1, if_false]
      exact ⟨hskip, rfl⟩

/-- **Every run**: arrays and tables fault alike, show the same and end
related. -/
theorem run_represents (cfg : Config) {c₁ c₂ : ℤ} {s : State} {t : Tables}
    (h : Represents c₁ c₂ s t) (ps : List Pass) :
    Agree (Represents c₁ c₂) (run (midiEventPass cfg) s ps) (run (tablesPass cfg c₁ c₂) t ps) :=
  run_agree (pass_agree cfg c₁ c₂) h ps

/-! ### Runs of the program -/

theorem newMIDItrack_entries (c : ℤ) : (newMIDItrack c).entries = [] := by
  simp [MIDItrack.entries, newMIDItrack]

theorem initial_represents (c₁ c₂ : ℤ) : Represents c₁ c₂ (initial c₁ c₂) noTables := by
  have h (c : ℤ) : Holds (newMIDItrack c) [] :=
    ⟨rfl, by simp, newMIDItrack_entries c⟩
  exact represents_of_holds (h c₁) (h c₂) (by intro e he; simp at he) (by intro e he; simp at he)
    none

section runs

variable {cfg : Config} {c₁ c₂ : ℤ} {ps : List Pass}

/-- A run of the program, read as a run over tables. -/
theorem run_tables {s : State} {outs : List Output}
    (h : run (midiEventPass cfg) (initial c₁ c₂) ps = .ok (s, outs)) :
    run (tablesPass cfg c₁ c₂) noTables ps = .ok (s.tables, outs) ∧ s.WellFormed := by
  obtain ⟨t, ht, hrep⟩ := (run_represents cfg (initial_represents c₁ c₂) ps).ok h
  obtain ⟨hwf, -, -, rfl⟩ := hrep
  exact ⟨ht, hwf⟩

/-- A pass after a run of the program, read as a pass over tables. -/
theorem pass_tables {s s' : State} {outs : List Output} {p : Pass} {o : Output}
    (h : run (midiEventPass cfg) (initial c₁ c₂) ps = .ok (s, outs))
    (hp : midiEventPass cfg s p = .ok (s', o)) :
    tablesPass cfg c₁ c₂ s.tables p = .ok (s'.tables, o) ∧ s'.WellFormed := by
  obtain ⟨t, -, hrep⟩ := (run_represents cfg (initial_represents c₁ c₂) ps).ok h
  obtain ⟨t', ht', hrep'⟩ := (pass_agree cfg c₁ c₂ s t p hrep).ok hp
  obtain ⟨-, -, -, rfl⟩ := hrep
  obtain ⟨hwf, -, -, rfl⟩ := hrep'
  exact ⟨ht', hwf⟩

/-- A run over tables is one of the program. -/
theorem run_of_tables {t : Tables} {outs : List Output}
    (h : run (tablesPass cfg c₁ c₂) noTables ps = .ok (t, outs)) :
    ∃ s, run (midiEventPass cfg) (initial c₁ c₂) ps = .ok (s, outs) ∧ s.tables = t := by
  have hagree := run_represents cfg (initial_represents c₁ c₂) ps
  rw [h] at hagree
  rcases e : run (midiEventPass cfg) (initial c₁ c₂) ps with err | ⟨s, os⟩
  · rw [e] at hagree
    exact hagree.elim
  · rw [e] at hagree
    obtain ⟨hrep, rfl⟩ := hagree
    exact ⟨s, rfl, hrep.tables⟩

/-- A pass over the tables of a state reached is one of the program. -/
theorem pass_of_tables {s : State} {outs : List Output} {p : Pass} {t' : Tables} {o : Output}
    (h : run (midiEventPass cfg) (initial c₁ c₂) ps = .ok (s, outs))
    (hp : tablesPass cfg c₁ c₂ s.tables p = .ok (t', o)) :
    ∃ s', midiEventPass cfg s p = .ok (s', o) ∧ s'.tables = t' := by
  have hsnoc : run (tablesPass cfg c₁ c₂) noTables (ps ++ [p]) = .ok (t', outs ++ [o]) :=
    run_snoc_ok.mpr ⟨_, _, _, (run_tables h).1, hp, rfl⟩
  obtain ⟨s', hs', rfl⟩ := run_of_tables hsnoc
  obtain ⟨s₁, outs₁, o₁, h₁, hstep, houts⟩ := run_snoc_ok.mp hs'
  obtain ⟨rfl, rfl⟩ := Prod.mk.inj (Except.ok.inj (h.symm.trans h₁))
  obtain rfl := (List.cons.inj (List.append_cancel_left houts)).1
  exact ⟨s', hstep, rfl⟩

/-- What the run over tables shows is what the program shows. -/
theorem run_unique {s : State} {t : Tables} {outs outs' : List Output}
    (h : run (midiEventPass cfg) (initial c₁ c₂) ps = .ok (s, outs))
    (ht : run (tablesPass cfg c₁ c₂) noTables ps = .ok (t, outs')) : s.tables = t ∧ outs = outs' :=
  Prod.mk.inj (Except.ok.inj ((run_tables h).1.symm.trans ht))

/-- A guard on the tables guards the run over tables. -/
theorem guarded_tables {C : Tables → Pass → Prop}
    (h : Guarded (midiEventPass cfg) (fun s p => C s.tables p) (initial c₁ c₂) ps) :
    Guarded (tablesPass cfg c₁ c₂) C noTables ps := by
  intro past p hp t outs hrun
  obtain ⟨s, hs, rfl⟩ := run_of_tables hrun
  exact h past p hp s outs hs

theorem guarded_of_tables {C : Tables → Pass → Prop}
    (h : Guarded (tablesPass cfg c₁ c₂) C noTables ps) :
    Guarded (midiEventPass cfg) (fun s p => C s.tables p) (initial c₁ c₂) ps := by
  intro past p hp s outs hrun
  exact h past p hp s.tables outs (run_tables hrun).1

/-- The links of every state reached lie within the arrays. -/
theorem guarded_wellLinked :
    Guarded (tablesPass cfg c₁ c₂) (fun t _ => ∀ σ, WellLinked (t.get σ)) noTables ps := by
  intro past p hp t outs hrun σ
  obtain ⟨s, hs, rfl⟩ := run_of_tables hrun
  have hwf := (run_tables hs).2
  cases σ with
  | score => exact hwf.links1
  | inst => exact hwf.links2

/-- Unless `MAX_BADNESS` is zero, every run goes to its end. -/
theorem run_ok (hbad : cfg.maxBadness ≠ 0) (ps : List Pass) :
    ∃ s outs, run (midiEventPass cfg) (initial c₁ c₂) ps = .ok (s, outs) := by
  have hstep (s : Tables) (p : Pass) (_ : True) :
      ∃ s' o, tablesPass cfg c₁ c₂ s p = .ok (s', o) ∧ True := by
    obtain ⟨s', o, h⟩ := tablesPass_total hbad c₁ c₂ s p
    exact ⟨s', o, h, trivial⟩
  obtain ⟨t, outs, ht, -⟩ := run_total (fun _ => True) (s := noTables) trivial hstep ps
  obtain ⟨s, hs, -⟩ := run_of_tables ht
  exact ⟨s, outs, hs⟩

end runs

end MidiTraining
