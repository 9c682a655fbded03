/-
MidiTraining/Table.lean

What the tables are for: each is the list of its sounding notes.

This is the abstract model that `MidiTraining.Refine` connects to the
arrays of `MidiTraining.Track`.  A table is a plain list of entries; a
note-on appends an entry, a note-off removes the first entry of its pitch
by moving the last one into its place, and a write through a link that
designates no entry of the other table is dropped.

The two ports do the same to exchanged tables, so the model is written once
for a *side*: `Action` is what a pass asks for, `Pass.action` decodes it,
and `tablesPass` carries it out.  `noteOff_cases` says once what a note-off
can do; the invariants of the later modules are derived from it.
-/
import Mathlib.Tactic.SplitIfs
import MidiTraining.Event
import MidiTraining.Lib.SwapRemove

namespace MidiTraining

open SwapRemove FaultMachine

/-! ### Entries and tables -/

/-- One slot of the seven arrays. -/
structure Entry where
  note : ℤ
  start : ℤ
  tick : ℤ
  link : ℤ
  lstart : ℤ
  lend : ℤ
  ltick : ℤ
  deriving DecidableEq, Repr

/-- A table of sounding notes. -/
abbrev Table := List Entry

namespace Entry

/-- The entry a note-on saves, before linking. -/
def fresh (note t tick : ℤ) : Entry := ⟨note, t, tick, -1, -1, -1, -1⟩

/-- The test for the pitch in `track_note_off`. -/
def hasNote (p : ℤ) (e : Entry) : Bool := decide (e.note = p)

/-- The test of the linking loop: no partner yet, and the pitch `p`. -/
def free (p : ℤ) (e : Entry) : Bool := decide (e.link = -1) && decide (e.note = p)

/-- What the linking loop does to an entry of the other table. -/
def linkTo (p k : ℤ) (e : Entry) : Entry := if e.free p then { e with link := k } else e

/-- The infos sent to the linked note. -/
def receive (e : Entry) (t : ℤ) (r : Entry) : Entry :=
  { r with lstart := e.start, lend := t, ltick := e.tick }

/-- The note is linked, and its partner's end is not recorded. -/
def Waiting (e : Entry) : Prop := e.link > -1 ∧ ¬ e.lend > -1

/-- The note is linked, and its partner's end is recorded. -/
def Answered (e : Entry) : Prop := e.link > -1 ∧ e.lend > -1

instance (e : Entry) : Decidable e.Waiting := by unfold Waiting; infer_instance

instance (e : Entry) : Decidable e.Answered := by unfold Answered; infer_instance

@[simp] theorem hasNote_iff {p : ℤ} {e : Entry} : e.hasNote p = true ↔ e.note = p := by
  simp [hasNote]

@[simp] theorem hasNote_eq_false_iff {p : ℤ} {e : Entry} : e.hasNote p = false ↔ e.note ≠ p := by
  simp [hasNote]

theorem free_iff {p : ℤ} {e : Entry} : e.free p = true ↔ e.link = -1 ∧ e.note = p := by
  simp [free]

theorem linkTo_of_free {p k : ℤ} {e : Entry} (h : e.free p = true) :
    e.linkTo p k = { e with link := k } := by
  simp [linkTo, h]

theorem linkTo_of_not_free {p k : ℤ} {e : Entry} (h : e.free p = false) : e.linkTo p k = e := by
  simp [linkTo, h]

theorem linkTo_of_note_ne {p k : ℤ} {e : Entry} (h : e.note ≠ p) : e.linkTo p k = e :=
  linkTo_of_not_free (by simp [free, h])

theorem linkTo_of_link_ne {p k : ℤ} {e : Entry} (h : e.link ≠ -1) : e.linkTo p k = e :=
  linkTo_of_not_free (by simp [free, h])

@[simp] theorem linkTo_note (p k : ℤ) (e : Entry) : (e.linkTo p k).note = e.note := by
  unfold linkTo; split <;> rfl

@[simp] theorem linkTo_start (p k : ℤ) (e : Entry) : (e.linkTo p k).start = e.start := by
  unfold linkTo; split <;> rfl

@[simp] theorem linkTo_tick (p k : ℤ) (e : Entry) : (e.linkTo p k).tick = e.tick := by
  unfold linkTo; split <;> rfl

@[simp] theorem linkTo_lstart (p k : ℤ) (e : Entry) : (e.linkTo p k).lstart = e.lstart := by
  unfold linkTo; split <;> rfl

@[simp] theorem linkTo_lend (p k : ℤ) (e : Entry) : (e.linkTo p k).lend = e.lend := by
  unfold linkTo; split <;> rfl

@[simp] theorem linkTo_ltick (p k : ℤ) (e : Entry) : (e.linkTo p k).ltick = e.ltick := by
  unfold linkTo; split <;> rfl

@[simp] theorem receive_note (e : Entry) (t : ℤ) (r : Entry) : (e.receive t r).note = r.note := rfl

@[simp] theorem receive_start (e : Entry) (t : ℤ) (r : Entry) :
    (e.receive t r).start = r.start := rfl

@[simp] theorem receive_tick (e : Entry) (t : ℤ) (r : Entry) : (e.receive t r).tick = r.tick := rfl

@[simp] theorem receive_link (e : Entry) (t : ℤ) (r : Entry) : (e.receive t r).link = r.link := rfl

@[simp] theorem receive_lend (e : Entry) (t : ℤ) (r : Entry) : (e.receive t r).lend = t := rfl

@[simp] theorem receive_lstart (e : Entry) (t : ℤ) (r : Entry) :
    (e.receive t r).lstart = e.start := rfl

@[simp] theorem receive_ltick (e : Entry) (t : ℤ) (r : Entry) :
    (e.receive t r).ltick = e.tick := rfl

end Entry

/-- What the linking loop leaves alone in an entry, it leaves alone in a
table. -/
theorem map_linkTo {α : Type*} {g : Entry → α} {p k : ℤ} (hg : ∀ r, g (r.linkTo p k) = g r)
    (R : Table) : (R.map (Entry.linkTo p k)).map g = R.map g := by
  rw [List.map_map]
  exact List.map_congr_left fun r _ => hg r

/-- Likewise for a write through a link. -/
theorem map_modify_receive {α : Type*} {g : Entry → α} {e : Entry} {t : ℤ}
    (hg : ∀ r, g (e.receive t r) = g r) (R : Table) (j : ℕ) :
    (R.modify j (e.receive t)).map g = R.map g := by
  have hid (r : Entry) : g (e.receive t r) = id (g r) := hg r
  rw [map_modify hid, List.modify_id]

/-! ### `track_note_on` on tables -/

/-- The link a new note of pitch `p` ends up with: the loop overwrites it at
each match, so the last one stays. -/
def newLink (ref : Table) (p : ℤ) : ℤ :=
  match lastIdx (Entry.free p) ref with
  | some n => n
  | none => -1

/-- `track_note_on` on tables. -/
def noteOn (track ref : Table) (note t tick : ℤ) : Table × Table :=
  if track.length < maxLength then
    (track ++ [{ Entry.fresh note t tick with link := newLink ref note }],
      ref.map (Entry.linkTo note track.length))
  else (track, ref)

theorem noteOn_of_room {track : Table} (h : track.length < maxLength) (ref : Table)
    (note t tick : ℤ) :
    noteOn track ref note t tick =
      (track ++ [{ Entry.fresh note t tick with link := newLink ref note }],
        ref.map (Entry.linkTo note track.length)) := by
  simp [noteOn, h]

theorem noteOn_of_full {track : Table} (h : ¬ track.length < maxLength) (ref : Table)
    (note t tick : ℤ) : noteOn track ref note t tick = (track, ref) := by
  simp [noteOn, h]

theorem newLink_eq_neg_one_iff {ref : Table} {p : ℤ} :
    newLink ref p = -1 ↔ ∀ r ∈ ref, r.free p = false := by
  unfold newLink
  rcases e : lastIdx (Entry.free p) ref with - | n
  · simpa using lastIdx_eq_none_iff.mp e
  · obtain ⟨r, hr, hfree⟩ := lastIdx_getElem? e
    constructor
    · intro h
      simp only at h
      omega
    · intro h
      rw [h r (List.mem_of_getElem? hr)] at hfree
      cases hfree

/-- A link that is set designates a note of the other table that had no
partner yet. -/
theorem newLink_spec {ref : Table} {p : ℤ} (h : newLink ref p ≠ -1) :
    0 ≤ newLink ref p ∧ ∃ r, ref[(newLink ref p).toNat]? = some r ∧ r.free p = true := by
  unfold newLink at h ⊢
  rcases e : lastIdx (Entry.free p) ref with - | n
  · simp [e] at h
  · obtain ⟨r, hr, hfree⟩ := lastIdx_getElem? e
    exact ⟨by simp, r, by simpa using hr, hfree⟩

theorem newLink_ge (ref : Table) (p : ℤ) : -1 ≤ newLink ref p := by
  unfold newLink
  rcases lastIdx (Entry.free p) ref with - | n <;> simp

theorem newLink_lt (ref : Table) (p : ℤ) : newLink ref p < ref.length ∨ newLink ref p = -1 := by
  by_cases h : newLink ref p = -1
  · exact Or.inr h
  · obtain ⟨h0, r, hr, -⟩ := newLink_spec h
    have := (List.getElem?_eq_some_iff.mp hr).1
    exact Or.inl (by omega)

/-! ### `track_note_off` on tables -/

/-- The branch on the link of the entry that ends: the badness and the other
table. -/
def gradeEntry (cfg : Config) (ref : Table) (t isInst : ℤ) (e : Entry) : ℤ × Table :=
  if e.link > -1 then
    if e.lend > -1 then (weightedDelay cfg isInst t e.start e.lstart e.lend, ref)
    else (-2, ref.modify e.link.toNat (e.receive t))
  else (-1, ref)

section gradeEntry

variable (cfg : Config) (ref : Table) (t isInst : ℤ) {e : Entry}

theorem gradeEntry_of_unlinked (h : ¬ e.link > -1) : gradeEntry cfg ref t isInst e = (-1, ref) := by
  rw [gradeEntry, if_neg h]

theorem gradeEntry_of_answered (h : e.Answered) : gradeEntry cfg ref t isInst e =
    (weightedDelay cfg isInst t e.start e.lstart e.lend, ref) := by
  rw [gradeEntry, if_pos h.1, if_pos h.2]

theorem gradeEntry_of_waiting (h : e.Waiting) : gradeEntry cfg ref t isInst e =
    (-2, ref.modify e.link.toNat (e.receive t)) := by
  rw [gradeEntry, if_pos h.1, if_neg h.2]

end gradeEntry

/-- An entry has no partner, or waits for its partner's end, or has it. -/
theorem Entry.trichotomy (e : Entry) : ¬ e.link > -1 ∨ e.Answered ∨ e.Waiting := by
  by_cases hlink : e.link > -1
  · by_cases hlend : e.lend > -1
    · exact Or.inr (Or.inl ⟨hlink, hlend⟩)
    · exact Or.inr (Or.inr ⟨hlink, hlend⟩)
  · exact Or.inl hlink

/-- The tick `track_note_off` returns. -/
def tickOf (isInst : ℤ) (e : Entry) : ℤ := if isInst = 1 then e.ltick else e.tick

/-- `track_note_off` on tables. -/
def noteOff (cfg : Config) (track ref : Table) (note t isInst : ℤ) : NoteOff Table :=
  match firstAt (Entry.hasNote note) track with
  | none => ⟨-1, none, track, ref⟩
  | some (n, e) =>
      ⟨(gradeEntry cfg ref t isInst e).1, some (tickOf isInst e), swapRemove track n,
        (gradeEntry cfg ref t isInst e).2⟩

/-- **What a note-off can do.**  It does not find its pitch; or it removes
the first entry of its pitch, which had no partner, or whose partner has
ended, or which sends its data through its link. -/
theorem noteOff_cases (cfg : Config) (track ref : Table) (note t isInst : ℤ) :
    (firstAt (Entry.hasNote note) track = none ∧
      noteOff cfg track ref note t isInst = ⟨-1, none, track, ref⟩) ∨
    ∃ n e, firstAt (Entry.hasNote note) track = some (n, e) ∧
      ((¬ e.link > -1 ∧ noteOff cfg track ref note t isInst =
          ⟨-1, some (tickOf isInst e), swapRemove track n, ref⟩) ∨
        (e.Answered ∧ noteOff cfg track ref note t isInst =
          ⟨weightedDelay cfg isInst t e.start e.lstart e.lend, some (tickOf isInst e),
            swapRemove track n, ref⟩) ∨
        (e.Waiting ∧ noteOff cfg track ref note t isInst =
          ⟨-2, some (tickOf isInst e), swapRemove track n,
            ref.modify e.link.toNat (e.receive t)⟩)) := by
  rcases h : firstAt (Entry.hasNote note) track with - | ⟨n, e⟩
  · exact Or.inl ⟨rfl, by simp [noteOff, h]⟩
  · refine Or.inr ⟨n, e, rfl, ?_⟩
    rcases e.trichotomy with he | he | he
    · exact Or.inl ⟨he, by simp [noteOff, h, gradeEntry_of_unlinked _ _ _ _ he]⟩
    · exact Or.inr (Or.inl ⟨he, by simp [noteOff, h, gradeEntry_of_answered _ _ _ _ he]⟩)
    · exact Or.inr (Or.inr ⟨he, by simp [noteOff, h, gradeEntry_of_waiting _ _ _ _ he]⟩)

section found

variable (cfg : Config) {track : Table} (ref : Table) {note : ℤ} (t isInst : ℤ) {n : ℕ} {e : Entry}

theorem noteOff_track (h : firstAt (Entry.hasNote note) track = some (n, e)) :
    (noteOff cfg track ref note t isInst).track = swapRemove track n := by
  simp [noteOff, h]

theorem noteOff_tick (h : firstAt (Entry.hasNote note) track = some (n, e)) :
    (noteOff cfg track ref note t isInst).tick = some (tickOf isInst e) := by
  simp [noteOff, h]

theorem noteOff_badness (h : firstAt (Entry.hasNote note) track = some (n, e)) :
    (noteOff cfg track ref note t isInst).badness = (gradeEntry cfg ref t isInst e).1 := by
  simp [noteOff, h]

theorem noteOff_ref_of_waiting (h : firstAt (Entry.hasNote note) track = some (n, e))
    (he : e.Waiting) :
    (noteOff cfg track ref note t isInst).ref = ref.modify e.link.toNat (e.receive t) := by
  simp [noteOff, h, gradeEntry_of_waiting cfg ref t isInst he]

theorem noteOff_ref_of_not_waiting (h : firstAt (Entry.hasNote note) track = some (n, e))
    (he : ¬ e.Waiting) : (noteOff cfg track ref note t isInst).ref = ref := by
  rcases e.trichotomy with hu | ha | hw
  · simp [noteOff, h, gradeEntry_of_unlinked cfg ref t isInst hu]
  · simp [noteOff, h, gradeEntry_of_answered cfg ref t isInst ha]
  · exact absurd hw he

end found

theorem mem_modify_receive {ref : Table} {e r : Entry} {j : ℕ} {t : ℤ}
    (h : r ∈ ref.modify j (e.receive t)) :
    r ∈ ref ∨ ∃ r₀, ref[j]? = some r₀ ∧ r = e.receive t r₀ := by
  obtain ⟨i, hi⟩ := List.mem_iff_getElem?.mp h
  rw [List.getElem?_modify] at hi
  rcases hr : ref[i]? with - | r₀
  · simp [hr] at hi
  · by_cases hij : j = i
    · subst hij
      exact Or.inr ⟨r₀, hr, by simpa [hr] using hi.symm⟩
    · left
      obtain rfl : r₀ = r := by simpa [hr, hij] using hi
      exact List.mem_of_getElem? hr

/-! ### Sides and actions -/

/-- The two ports: `score` is port 0, `inst` is port 1. -/
inductive Side
  | score
  | inst
  deriving DecidableEq, Repr

namespace Side

/-- The other port. -/
def other : Side → Side
  | score => inst
  | inst => score

/-- The argument `is_inst`. -/
def isInst : Side → ℤ
  | score => -1
  | inst => 1

@[simp] theorem tickOf_score (e : Entry) : tickOf score.isInst e = e.tick := rfl

@[simp] theorem tickOf_inst (e : Entry) : tickOf inst.isInst e = e.ltick := rfl

@[simp] theorem other_other (σ : Side) : σ.other.other = σ := by cases σ <;> rfl

@[simp] theorem other_ne (σ : Side) : σ.other ≠ σ := by cases σ <;> simp [other]

@[simp] theorem ne_other (σ : Side) : σ ≠ σ.other := by cases σ <;> simp [other]

theorem eq_or_eq_other (σ τ : Side) : τ = σ ∨ τ = σ.other := by
  cases σ <;> cases τ <;> simp [other]

end Side

/-- What a pass asks of the tables. -/
inductive Action
  | noteOn (side : Side) (note t tick : ℤ)
  | noteOff (side : Side) (note t : ℤ)
  | ignored
  deriving DecidableEq, Repr

/-- The action of an event that arrives on a side. -/
def Pass.actionOn (p : Pass) (side : Side) (tick : ℤ) : Action :=
  if p.ev.isNoteOff then .noteOff side p.ev.note p.time
  else if p.ev.type = .noteon then .noteOn side p.ev.note p.time tick
  else .ignored

/-- Decode a pass, for the channels of the two tables. -/
def Pass.action (scoreChannel instChannel : ℤ) (p : Pass) : Action :=
  if p.ev.port = 0 then
    if p.ev.channel = scoreChannel then p.actionOn .score p.ev.tick else .ignored
  else if p.ev.port = 1 then
    if p.ev.channel = instChannel then p.actionOn .inst 0 else .ignored
  else .ignored

/-- The port of a side. -/
def Side.port : Side → ℤ
  | .score => 0
  | .inst => 1

/-- Where a note-on comes from. -/
theorem Pass.of_noteOn {c₁ c₂ : ℤ} {p : Pass} {side : Side} {note t k : ℤ}
    (h : p.action c₁ c₂ = .noteOn side note t k) :
    p.ev.port = side.port ∧ p.ev.note = note ∧ p.time = t := by
  unfold Pass.action Pass.actionOn at h
  split_ifs at h <;> cases h <;> exact ⟨by assumption, rfl, rfl⟩

/-- Where a note-off comes from. -/
theorem Pass.of_noteOff {c₁ c₂ : ℤ} {p : Pass} {side : Side} {note t : ℤ}
    (h : p.action c₁ c₂ = .noteOff side note t) :
    p.ev.port = side.port ∧ p.ev.note = note ∧ p.time = t := by
  unfold Pass.action Pass.actionOn at h
  split_ifs at h <;> cases h <;> exact ⟨by assumption, rfl, rfl⟩

/-! ### The two tables and a pass over them -/

/-- The two tables and the local `tick`. -/
structure Tables where
  score : Table
  inst : Table
  tick : Option ℤ
  deriving DecidableEq, Repr

namespace Tables

/-- The table of a side. -/
def get (s : Tables) : Side → Table
  | .score => s.score
  | .inst => s.inst

/-- Put back the table of a side and the other one. -/
def put (side : Side) (track ref : Table) (tick : Option ℤ) : Tables :=
  match side with
  | .score => ⟨track, ref, tick⟩
  | .inst => ⟨ref, track, tick⟩

@[simp] theorem get_put (side : Side) (track ref : Table) (tick : Option ℤ) :
    (put side track ref tick).get side = track := by cases side <;> rfl

@[simp] theorem get_put_other (side : Side) (track ref : Table) (tick : Option ℤ) :
    (put side track ref tick).get side.other = ref := by cases side <;> rfl

@[simp] theorem put_tick (side : Side) (track ref : Table) (tick : Option ℤ) :
    (put side track ref tick).tick = tick := by cases side <;> rfl

@[simp] theorem get_with_tick (s : Tables) (tick : Option ℤ) (side : Side) :
    ({ s with tick := tick } : Tables).get side = s.get side := by cases side <;> rfl

/-- A fact about both sides follows from the side that acts and the other
one. -/
theorem forall_put {P : Table → Table → Prop} {side : Side} {track ref : Table}
    {tick : Option ℤ} (h₁ : P track ref) (h₂ : P ref track) (σ : Side) :
    P ((put side track ref tick).get σ) ((put side track ref tick).get σ.other) := by
  rcases Side.eq_or_eq_other side σ with rfl | rfl
  · simpa using h₁
  · simpa using h₂

/-- A fact about every entry, likewise. -/
theorem mem_put {P : Side → Entry → Prop} {side : Side} {track ref : Table} {tick : Option ℤ}
    (h₁ : ∀ e ∈ track, P side e) (h₂ : ∀ e ∈ ref, P side.other e) (σ : Side) :
    ∀ e ∈ (put side track ref tick).get σ, P σ e := by
  rcases Side.eq_or_eq_other side σ with rfl | rfl
  · rw [get_put]
    exact h₁
  · rw [get_put_other]
    exact h₂

end Tables

/-- What a side sends after one of its note-offs. -/
def sendMessage (cfg : Config) : Side → ℤ → Option ℤ → ℤ → Except Fault (List Message)
  | .score => sendScore cfg
  | .inst => sendInst cfg

/-- One round of `midi_event` on tables. -/
def tablesPass (cfg : Config) (scoreChannel instChannel : ℤ) (s : Tables) (p : Pass) :
    Except Fault (Tables × Output) :=
  let tick := if p.first then none else s.tick
  match p.action scoreChannel instChannel with
  | .noteOn side note t k =>
      let r := noteOn (s.get side) (s.get side.other) note t k
      .ok (.put side r.1 r.2 tick, .silent)
  | .noteOff side note t =>
      let r := noteOff cfg (s.get side) (s.get side.other) note t side.isInst
      let tick := r.tick.or tick
      match sendMessage cfg side r.badness tick note with
      | .ok sent => .ok (.put side r.track r.ref tick, ⟨some r.badness, r.tick, sent⟩)
      | .error e => .error e
  | .ignored => .ok ({ s with tick := tick }, .silent)

/-- No sounding note on either side. -/
def noTables : Tables := ⟨[], [], none⟩

@[simp] theorem noTables_get (σ : Side) : noTables.get σ = [] := by cases σ <;> rfl

/-- **What a pass can do**, by the action it asks for. -/
theorem tablesPass_cases {cfg : Config} {c₁ c₂ : ℤ} {s s' : Tables} {p : Pass} {o : Output}
    (h : tablesPass cfg c₁ c₂ s p = .ok (s', o)) :
    (∃ side note t k tick, p.action c₁ c₂ = .noteOn side note t k ∧
      s' = .put side (noteOn (s.get side) (s.get side.other) note t k).1
        (noteOn (s.get side) (s.get side.other) note t k).2 tick ∧ o = .silent) ∨
    (∃ side note t tick sent, p.action c₁ c₂ = .noteOff side note t ∧
      s' = .put side (noteOff cfg (s.get side) (s.get side.other) note t side.isInst).track
        (noteOff cfg (s.get side) (s.get side.other) note t side.isInst).ref
        ((noteOff cfg (s.get side) (s.get side.other) note t side.isInst).tick.or tick) ∧
      sendMessage cfg side (noteOff cfg (s.get side) (s.get side.other) note t side.isInst).badness
        ((noteOff cfg (s.get side) (s.get side.other) note t side.isInst).tick.or tick) note
          = .ok sent ∧
      o = ⟨some (noteOff cfg (s.get side) (s.get side.other) note t side.isInst).badness,
        (noteOff cfg (s.get side) (s.get side.other) note t side.isInst).tick, sent⟩) ∨
    (p.action c₁ c₂ = .ignored ∧ (∀ σ, s'.get σ = s.get σ) ∧ o = .silent) := by
  unfold tablesPass at h
  rcases ha : p.action c₁ c₂ with ⟨side, note, t, k⟩ | ⟨side, note, t⟩ | -
  · left
    rw [ha] at h
    obtain ⟨rfl, rfl⟩ : _ = s' ∧ _ = o := by simpa using h
    exact ⟨side, note, t, k, _, rfl, rfl, rfl⟩
  · right; left
    rw [ha] at h
    simp only at h
    split at h
    · rename_i sent hsent
      obtain ⟨rfl, rfl⟩ : _ = s' ∧ _ = o := by simpa using h
      exact ⟨side, note, t, _, sent, rfl, rfl, hsent, rfl⟩
    · cases h
  · right; right
    rw [ha] at h
    obtain ⟨rfl, rfl⟩ : _ = s' ∧ _ = o := by simpa using h
    exact ⟨rfl, fun σ => by simp, rfl⟩

theorem tablesPass_of_noteOff {cfg : Config} {c₁ c₂ : ℤ} {s s' : Tables} {p : Pass} {o : Output}
    (h : tablesPass cfg c₁ c₂ s p = .ok (s', o)) {side : Side} {note t : ℤ}
    (ha : p.action c₁ c₂ = .noteOff side note t) :
    ∃ tick sent, s' = .put side
        (noteOff cfg (s.get side) (s.get side.other) note t side.isInst).track
        (noteOff cfg (s.get side) (s.get side.other) note t side.isInst).ref
        ((noteOff cfg (s.get side) (s.get side.other) note t side.isInst).tick.or tick) ∧
      sendMessage cfg side (noteOff cfg (s.get side) (s.get side.other) note t side.isInst).badness
        ((noteOff cfg (s.get side) (s.get side.other) note t side.isInst).tick.or tick) note
          = .ok sent ∧
      o = ⟨some (noteOff cfg (s.get side) (s.get side.other) note t side.isInst).badness,
        (noteOff cfg (s.get side) (s.get side.other) note t side.isInst).tick, sent⟩ := by
  rcases tablesPass_cases h with ⟨_, _, _, _, _, ha', -⟩ | ⟨_, _, _, tick, sent, ha', hrest⟩ |
    ⟨ha', -⟩
  · rw [ha] at ha'
    cases ha'
  · rw [ha] at ha'
    cases ha'
    exact ⟨tick, sent, hrest⟩
  · rw [ha] at ha'
    cases ha'

theorem tablesPass_of_noteOn {cfg : Config} {c₁ c₂ : ℤ} {s s' : Tables} {p : Pass} {o : Output}
    (h : tablesPass cfg c₁ c₂ s p = .ok (s', o)) {side : Side} {note t k : ℤ}
    (ha : p.action c₁ c₂ = .noteOn side note t k) :
    o = .silent ∧ ∃ tick, s' = .put side (noteOn (s.get side) (s.get side.other) note t k).1
      (noteOn (s.get side) (s.get side.other) note t k).2 tick := by
  rcases tablesPass_cases h with ⟨_, _, _, _, tick, ha', hs, ho⟩ | ⟨_, _, _, _, _, ha', -⟩ |
    ⟨ha', -⟩
  · rw [ha] at ha'
    cases ha'
    exact ⟨ho, tick, hs⟩
  · rw [ha] at ha'
    cases ha'
  · rw [ha] at ha'
    cases ha'

theorem tablesPass_of_ignored {cfg : Config} {c₁ c₂ : ℤ} {s s' : Tables} {p : Pass} {o : Output}
    (h : tablesPass cfg c₁ c₂ s p = .ok (s', o)) (ha : p.action c₁ c₂ = .ignored) :
    (∀ σ, s'.get σ = s.get σ) ∧ o = .silent := by
  rcases tablesPass_cases h with ⟨_, _, _, _, _, ha', -⟩ | ⟨_, _, _, _, _, ha', -⟩ | ⟨-, hs, ho⟩
  · rw [ha] at ha'
    cases ha'
  · rw [ha] at ha'
    cases ha'
  · exact ⟨hs, ho⟩

section entries

variable {P P' : Entry → Prop} {T R : Table} {note t k : ℤ}

theorem forall_noteOn_track (hT : ∀ e ∈ T, P e)
    (hnew : ∀ l, P { Entry.fresh note t k with link := l }) :
    ∀ e ∈ (noteOn T R note t k).1, P e := by
  by_cases hroom : T.length < maxLength
  · rw [noteOn_of_room hroom]
    intro e he
    rcases List.mem_append.mp he with hold | hmem
    · exact hT e hold
    · obtain rfl := List.mem_singleton.mp hmem
      exact hnew _
  · rw [noteOn_of_full hroom]
    exact hT

theorem forall_noteOn_ref (hR : ∀ r ∈ R, P r) (hmono : ∀ r, P r → P' r)
    (hlink : ∀ (r : Entry) (l : ℕ), P r → r.free note = true → P' { r with link := l }) :
    ∀ r ∈ (noteOn T R note t k).2, P' r := by
  by_cases hroom : T.length < maxLength
  · rw [noteOn_of_room hroom]
    intro r' hr'
    obtain ⟨r, hr, rfl⟩ := List.mem_map.mp hr'
    rcases hfree : r.free note with - | -
    · rw [Entry.linkTo_of_not_free hfree]
      exact hmono r (hR r hr)
    · rw [Entry.linkTo_of_free hfree]
      exact hlink r _ (hR r hr) hfree
  · rw [noteOn_of_full hroom]
    exact fun r hr => hmono r (hR r hr)

variable {cfg : Config} {isInst : ℤ}

theorem forall_noteOff_track (hT : ∀ e ∈ T, P e) :
    ∀ e ∈ (noteOff cfg T R note t isInst).track, P e := by
  rcases hfind : firstAt (Entry.hasNote note) T with - | ⟨n, e⟩
  · simp only [noteOff, hfind]
    exact hT
  · rw [noteOff_track cfg _ _ _ hfind]
    intro x hx
    exact hT x (mem_of_mem_swapRemove (firstAt_getElem? hfind) hx)

theorem forall_noteOff_ref (hR : ∀ r ∈ R, P r) (hmono : ∀ r, P r → P' r)
    (hsend : ∀ n e r, firstAt (Entry.hasNote note) T = some (n, e) → e.Waiting →
      R[e.link.toNat]? = some r → P r → P' (e.receive t r)) :
    ∀ r ∈ (noteOff cfg T R note t isInst).ref, P' r := by
  rcases hfind : firstAt (Entry.hasNote note) T with - | ⟨n, e⟩
  · simp only [noteOff, hfind]
    exact fun r hr => hmono r (hR r hr)
  · intro r' hr'
    by_cases hw : e.Waiting
    · rw [noteOff_ref_of_waiting cfg _ _ _ hfind hw] at hr'
      rcases mem_modify_receive hr' with hold | ⟨r, hr, rfl⟩
      · exact hmono r' (hR r' hold)
      · exact hsend n e r hfind hw hr (hR r (List.mem_of_getElem? hr))
    · rw [noteOff_ref_of_not_waiting cfg _ _ _ hfind hw] at hr'
      exact hmono r' (hR r' hr')

end entries

/-- **Facts about single entries.**  They hold after a pass if they hold of a
new note, survive the linking of a free note, and survive a write through
the link of the note that ends.  `P` is the fact before the pass and `P'`
the fact after it. -/
theorem tablesPass_forall {cfg : Config} {c₁ c₂ : ℤ} {s s' : Tables} {p : Pass} {o : Output}
    {P P' : Side → Entry → Prop} (h : tablesPass cfg c₁ c₂ s p = .ok (s', o))
    (hs : ∀ σ, ∀ e ∈ s.get σ, P σ e) (hmono : ∀ σ e, P σ e → P' σ e)
    (hnew : ∀ side note t k l, p.action c₁ c₂ = .noteOn side note t k →
      P' side { Entry.fresh note t k with link := l })
    (hlink : ∀ side note t k l r, p.action c₁ c₂ = .noteOn side note t k → P side.other r →
      r.free note = true → P' side.other { r with link := (l : ℕ) })
    (hsend : ∀ side note t n e r, p.action c₁ c₂ = .noteOff side note t →
      firstAt (Entry.hasNote note) (s.get side) = some (n, e) → e.Waiting →
      (s.get side.other)[e.link.toNat]? = some r → P side.other r →
      P' side.other (e.receive t r)) :
    ∀ σ, ∀ e ∈ s'.get σ, P' σ e := by
  have hkept (σ : Side) : ∀ e ∈ s.get σ, P' σ e := fun e he => hmono σ e (hs σ e he)
  rcases tablesPass_cases h with ⟨side, note, t, k, tick, ha, rfl, -⟩ |
    ⟨side, note, t, tick, sent, ha, rfl, -, -⟩ | ⟨-, hsame, -⟩
  · apply Tables.mem_put
    · exact forall_noteOn_track (hkept side) fun l => hnew side note t k l ha
    · apply forall_noteOn_ref (hs side.other) (hmono side.other)
      intro r l hr hfree
      exact hlink side note t k l r ha hr hfree
  · apply Tables.mem_put
    · exact forall_noteOff_track (hkept side)
    · apply forall_noteOff_ref (hs side.other) (hmono side.other)
      intro n e r hfind hw hr hP
      exact hsend side note t n e r ha hfind hw hr hP
  · intro σ
    rw [hsame σ]
    exact hkept σ

/-- Whether a side sends a message for a badness. -/
def Side.Sends : Side → ℤ → Prop
  | .score, badness => badness > -2
  | .inst, badness => badness > -1

instance : (side : Side) → (badness : ℤ) → Decidable (side.Sends badness)
  | .score, badness => inferInstanceAs (Decidable (badness > -2))
  | .inst, badness => inferInstanceAs (Decidable (badness > -1))

theorem Side.score_sends_neg_one : Side.score.Sends (-1) := by decide

theorem Side.not_inst_sends_neg_one : ¬ Side.inst.Sends (-1) := by decide

theorem Side.not_sends_neg_two (side : Side) : ¬ side.Sends (-2) := by cases side <;> decide

theorem Side.sends_of_nonneg (side : Side) {badness : ℤ} (h : 0 ≤ badness) :
    side.Sends badness := by
  cases side with
  | score =>
    show badness > -2
    omega
  | inst =>
    show badness > -1
    omega

/-- The badness a side passes to `getcolor`. -/
def Side.clamp (cfg : Config) : Side → ℤ → ℤ
  | .score, badness =>
      if badness = -1 ∨ badness > cfg.maxBadness then cfg.maxBadness else badness
  | .inst, badness => if badness > cfg.maxBadness then cfg.maxBadness else badness

/-- **What a side sends**: one message with the colour of the clamped
badness, or nothing. -/
theorem sendMessage_eq (cfg : Config) (side : Side) (badness : ℤ) (tick : Option ℤ) (note : ℤ) :
    sendMessage cfg side badness tick note =
      if side.Sends badness then
        (getcolor cfg (side.clamp cfg badness)).map fun color => [⟨tick, note, color⟩]
      else .ok [] := by
  cases side with
  | score =>
    show sendScore cfg badness tick note = if badness > -2 then _ else _
    unfold sendScore
    split
    · rcases hcol : getcolor cfg (Side.clamp cfg .score badness) with e | color <;>
        rw [Side.clamp] at hcol <;> simp [hcol, bind, Except.bind, Except.map, pure, Except.pure]
    · rfl
  | inst =>
    show sendInst cfg badness tick note = if badness > -1 then _ else _
    unfold sendInst
    split
    · rcases hcol : getcolor cfg (Side.clamp cfg .inst badness) with e | color <;>
        rw [Side.clamp] at hcol <;> simp [hcol, bind, Except.bind, Except.map, pure, Except.pure]
    · rfl

theorem sendMessage_cases {cfg : Config} {side : Side} {badness : ℤ} {tick : Option ℤ} {note : ℤ}
    {sent : List Message} (h : sendMessage cfg side badness tick note = .ok sent) :
    (side.Sends badness ∧ ∃ color, getcolor cfg (side.clamp cfg badness) = .ok color ∧
      sent = [⟨tick, note, color⟩]) ∨ (¬ side.Sends badness ∧ sent = []) := by
  rw [sendMessage_eq] at h
  by_cases hb : side.Sends badness
  · rw [if_pos hb] at h
    rcases hcol : getcolor cfg (side.clamp cfg badness) with e | color
    · rw [hcol] at h
      cases h
    · rw [hcol] at h
      cases h
      exact Or.inl ⟨hb, color, rfl, rfl⟩
  · rw [if_neg hb] at h
    cases h
    exact Or.inr ⟨hb, rfl⟩

/-- Sending faults only where `getcolor` divides by zero. -/
theorem sendMessage_ok {cfg : Config} (h : cfg.maxBadness ≠ 0) (side : Side) (badness : ℤ)
    (tick : Option ℤ) (note : ℤ) : ∃ sent, sendMessage cfg side badness tick note = .ok sent := by
  rw [sendMessage_eq, getcolor_of_ne_zero h]
  split
  · exact ⟨_, rfl⟩
  · exact ⟨_, rfl⟩

theorem tablesPass_total {cfg : Config} (h : cfg.maxBadness ≠ 0) (c₁ c₂ : ℤ) (s : Tables)
    (p : Pass) : ∃ s' o, tablesPass cfg c₁ c₂ s p = .ok (s', o) := by
  unfold tablesPass
  rcases p.action c₁ c₂ with ⟨side, note, t, k⟩ | ⟨side, note, t⟩ | -
  · exact ⟨_, _, rfl⟩
  · obtain ⟨sent, hsent⟩ := sendMessage_ok h side
      (noteOff cfg (s.get side) (s.get side.other) note t side.isInst).badness
      ((noteOff cfg (s.get side) (s.get side.other) note t side.isInst).tick.or
        (if p.first then none else s.tick)) note
    exact ⟨_, _, by simp only [hsent]; rfl⟩
  · exact ⟨_, _, rfl⟩

end MidiTraining
