/-
MidiTraining/Roster.lean

Which note is compared with which: the links as the code means them.

The bookkeeping of `MidiTraining.Book` serves the runs in which no sounding
pitch is struck again.  The reference of this module serves every run.  It
does what `track_note_on` and `track_note_off` do, but its links name notes
and not slots: a note is named by the position of its note-on in the run, it
is linked to a note, and its end is sent to that note, wherever the removals
have moved the two.  Times of strikes are not kept: a name stands for them.

The tables show the notes of the reference slot by slot (`Roster.Shown`) as
long as every result that is deferred is delivered (`Delivers`): the slot
that the link designates holds the note that the link was made to, or, if
that one sounds no more, no note.  Then what an entry has recorded of its
partner are the strike and the release of the note it was linked with
(`run_shown`).
-/
import MidiTraining.Book

namespace MidiTraining

open SwapRemove FaultMachine

/-! ### Notes and their links -/

/-- What a note sends at its end: its name, and the position and the time of
its note-off. -/
structure Answer where
  name : ℕ
  pos : ℕ
  time : ℤ
  deriving DecidableEq, Repr

/-- A sounding note. -/
structure Member where
  /-- The position of its note-on in the run. -/
  name : ℕ
  pitch : ℤ
  /-- The name of the note it was linked to. -/
  partner : Option ℕ
  /-- What a note that was linked to it has sent. -/
  answer : Option Answer
  deriving DecidableEq, Repr

namespace Member

/-- The test for the pitch. -/
def hasPitch (p : ℤ) (x : Member) : Bool := decide (x.pitch = p)

/-- No partner yet, and the pitch `p`. -/
def free (p : ℤ) (x : Member) : Bool := decide (x.partner = none) && decide (x.pitch = p)

/-- Link a free note of pitch `p` to the note `n`. -/
def linkTo (p : ℤ) (n : ℕ) (x : Member) : Member :=
  if x.free p then { x with partner := some n } else x

/-- The note is linked, and the end of a partner is known.  As in the code, a
time below zero is not told from the end that is missing. -/
def Answered (x : Member) : Prop := x.partner ≠ none ∧ ∃ a ∈ x.answer, a.time > -1

instance (x : Member) : Decidable x.Answered := by unfold Answered; infer_instance

/-- The end of the note `x`, at position `n` and time `t` of the run, as the
note `y` of the other side gets it. -/
def send (x : Member) (n : ℕ) (t : ℤ) (y : Member) : Member :=
  if x.partner = some y.name then { y with answer := some ⟨x.name, n, t⟩ } else y

@[simp] theorem hasPitch_iff {p : ℤ} {x : Member} : x.hasPitch p = true ↔ x.pitch = p := by
  simp [hasPitch]

theorem free_iff {p : ℤ} {x : Member} : x.free p = true ↔ x.partner = none ∧ x.pitch = p := by
  simp [free]

@[simp] theorem linkTo_name (p : ℤ) (n : ℕ) (x : Member) : (x.linkTo p n).name = x.name := by
  unfold linkTo; split <;> rfl

@[simp] theorem linkTo_pitch (p : ℤ) (n : ℕ) (x : Member) : (x.linkTo p n).pitch = x.pitch := by
  unfold linkTo; split <;> rfl

@[simp] theorem linkTo_answer (p : ℤ) (n : ℕ) (x : Member) :
    (x.linkTo p n).answer = x.answer := by
  unfold linkTo; split <;> rfl

theorem linkTo_of_free {p : ℤ} {n : ℕ} {x : Member} (h : x.free p = true) :
    x.linkTo p n = { x with partner := some n } := by
  simp [linkTo, h]

theorem linkTo_of_not_free {p : ℤ} {n : ℕ} {x : Member} (h : x.free p = false) :
    x.linkTo p n = x := by
  simp [linkTo, h]

theorem send_of_partner {x y : Member} (h : x.partner = some y.name) (n : ℕ) (t : ℤ) :
    x.send n t y = { y with answer := some ⟨x.name, n, t⟩ } := by
  simp [send, h]

theorem send_of_not_partner {x y : Member} (h : x.partner ≠ some y.name) (n : ℕ) (t : ℤ) :
    x.send n t y = y := by
  simp [send, h]

end Member

/-! ### The reference -/

/-- The name of the last free note of a pitch. -/
def lastFree (W : List Member) (p : ℤ) : Option ℕ :=
  ((W.filter (Member.free p)).getLast?).map Member.name

/-- The note-on at position `n`, for the notes of its side and of the other
one. -/
def enter (V W : List Member) (p : ℤ) (n : ℕ) : List Member × List Member :=
  if V.length < maxLength then
    (V ++ [⟨n, p, lastFree W p, none⟩], W.map (Member.linkTo p n))
  else (V, W)

/-- The note-off at position `n`. -/
def leave (V W : List Member) (p : ℤ) (n : ℕ) (t : ℤ) : List Member × List Member :=
  match firstAt (Member.hasPitch p) V with
  | none => (V, W)
  | some (k, x) => (swapRemove V k, if x.Answered then W else W.map (x.send n t))

/-- The sounding notes of the two sides. -/
structure Roster where
  score : List Member
  inst : List Member
  deriving DecidableEq, Repr

namespace Roster

/-- No sounding note on either side. -/
def empty : Roster := ⟨[], []⟩

/-- The notes of a side. -/
def get (B : Roster) : Side → List Member
  | .score => B.score
  | .inst => B.inst

/-- Put back the notes of a side and of the other one. -/
def put (side : Side) (x : List Member × List Member) : Roster :=
  match side with
  | .score => ⟨x.1, x.2⟩
  | .inst => ⟨x.2, x.1⟩

@[simp] theorem get_empty (σ : Side) : empty.get σ = [] := by cases σ <;> rfl

@[simp] theorem get_put (σ : Side) (x : List Member × List Member) : (put σ x).get σ = x.1 := by
  cases σ <;> rfl

@[simp] theorem get_put_other (σ : Side) (x : List Member × List Member) :
    (put σ x).get σ.other = x.2 := by
  cases σ <;> rfl

/-- A fact about every note follows from the side that acts and the other
one. -/
theorem mem_put {P : Side → Member → Prop} {side : Side} {x : List Member × List Member}
    (h₁ : ∀ y ∈ x.1, P side y) (h₂ : ∀ y ∈ x.2, P side.other y) (σ : Side) :
    ∀ y ∈ (put side x).get σ, P σ y := by
  rcases Side.eq_or_eq_other side σ with rfl | rfl
  · rw [get_put]
    exact h₁
  · rw [get_put_other]
    exact h₂

/-- Enter the action at position `n`. -/
def step (n : ℕ) (B : Roster) : Action → Roster
  | .noteOn σ p _ _ => put σ (enter (B.get σ) (B.get σ.other) p n)
  | .noteOff σ p t => put σ (leave (B.get σ) (B.get σ.other) p n t)
  | .ignored => B

end Roster

/-- The sounding notes after a run, with their links. -/
def roster (as : List Action) : Roster := as.zipIdx.foldl (fun B a => B.step a.2 a.1) .empty

theorem roster_snoc (as : List Action) (a : Action) :
    roster (as ++ [a]) = (roster as).step as.length a := by
  simp [roster, List.zipIdx_append]

/-! ### What the names stand for -/

/-- A note of the reference is a note of the run, linked to one of its pitch
on the other side, and it has been answered by one that ended. -/
structure Member.Genuine (as : List Action) (σ : Side) (x : Member) : Prop where
  struck : StruckNote as x.name σ x.pitch
  partner : ∀ i ∈ x.partner, StruckNote as i σ.other x.pitch
  answer : ∀ a ∈ x.answer, StruckNote as a.name σ.other x.pitch ∧
    as[a.pos]? = some (.noteOff σ.other x.pitch a.time)

namespace Member.Genuine

variable {as : List Action} {σ : Side} {x y : Member} {p t k : ℤ}

theorem snoc (h : x.Genuine as σ) (a : Action) : x.Genuine (as ++ [a]) σ where
  struck := h.struck.snoc a
  partner := fun i hi => (h.partner i hi).snoc a
  answer := by
    intro b hb
    obtain ⟨hstruck, hoff⟩ := h.answer b hb
    exact ⟨hstruck.snoc a, getElem?_snoc_eq_some.mpr (Or.inl hoff)⟩

/-- A note is linked to a new one of its pitch. -/
theorem linkTo (h : x.Genuine as σ.other) :
    (x.linkTo p as.length).Genuine (as ++ [.noteOn σ p t k]) σ.other := by
  rcases hfree : x.free p with - | -
  · rw [Member.linkTo_of_not_free hfree]
    exact h.snoc _
  · rw [Member.linkTo_of_free hfree]
    refine ⟨h.struck.snoc _, ?_, (h.snoc _).answer⟩
    rintro i hi
    obtain rfl := Option.mem_some_iff.mp hi
    rw [Side.other_other]
    exact ⟨t, k, by simp [(Member.free_iff.mp hfree).2]⟩

/-- A note is sent the end of the one that was linked to it. -/
theorem send (hx : x.Genuine as σ) (hy : y.Genuine as σ.other) :
    (x.send as.length t y).Genuine (as ++ [.noteOff σ x.pitch t]) σ.other := by
  by_cases hpartner : x.partner = some y.name
  · have hpitch : x.pitch = y.pitch := ((hx.partner _ hpartner).unique hy.struck).2
    rw [Member.send_of_partner hpartner]
    refine ⟨hy.struck.snoc _, (hy.snoc _).partner, ?_⟩
    rintro b hb
    obtain rfl := Option.mem_some_iff.mp hb
    rw [Side.other_other]
    refine ⟨?_, by simp [hpitch]⟩
    show StruckNote _ x.name σ y.pitch
    rw [← hpitch]
    exact hx.struck.snoc _
  · rw [Member.send_of_not_partner hpartner]
    exact hy.snoc _

end Member.Genuine

/-- The last free note is one of the free notes. -/
theorem mem_of_lastFree {W : List Member} {p : ℤ} {i : ℕ} (h : lastFree W p = some i) :
    ∃ y ∈ W, y.free p = true ∧ y.name = i := by
  obtain ⟨y, hy, rfl⟩ := Option.map_eq_some_iff.mp h
  obtain ⟨hmem, hfree⟩ := List.mem_filter.mp (List.mem_of_getLast? hy)
  exact ⟨y, hmem, hfree, rfl⟩

theorem lastFree_eq_none_iff {W : List Member} {p : ℤ} :
    lastFree W p = none ↔ ∀ y ∈ W, y.free p = false := by
  rw [lastFree, Option.map_eq_none_iff, List.getLast?_eq_none_iff, List.filter_eq_nil_iff]
  simp

/-- **The notes of the reference are notes of the run.** -/
theorem roster_genuine (as : List Action) : ∀ σ, ∀ x ∈ (roster as).get σ, x.Genuine as σ := by
  induction as using List.reverseRecOn with
  | nil => simp [roster]
  | append_singleton as a ih =>
    rw [roster_snoc]
    cases a with
    | noteOn σ p t k =>
      rw [Roster.step, enter]
      split
      · refine Roster.mem_put ?_ ?_
        · intro x hx
          rcases List.mem_append.mp hx with hold | hnew
          · exact (ih σ x hold).snoc _
          · obtain rfl := List.mem_singleton.mp hnew
            refine ⟨⟨t, k, by simp⟩, ?_, fun b hb => ?_⟩
            · intro i hi
              obtain ⟨y, hy, hfree, rfl⟩ := mem_of_lastFree hi
              show StruckNote _ y.name σ.other p
              rw [← (Member.free_iff.mp hfree).2]
              exact (ih _ y hy).struck.snoc _
            · cases hb
        · intro y' hy'
          obtain ⟨y, hy, rfl⟩ := List.mem_map.mp hy'
          exact (ih _ y hy).linkTo
      · exact Roster.mem_put (fun x hx => (ih _ x hx).snoc _) fun y hy => (ih _ y hy).snoc _
    | noteOff σ p t =>
      rw [Roster.step, leave]
      split
      · exact Roster.mem_put (fun x hx => (ih _ x hx).snoc _) fun y hy => (ih _ y hy).snoc _
      · rename_i n x hfind
        have hx := ih σ x (firstAt_mem hfind)
        obtain rfl := Member.hasPitch_iff.mp (firstAt_test hfind)
        refine Roster.mem_put ?_ ?_
        · intro z hz
          exact (ih σ z (mem_of_mem_swapRemove (firstAt_getElem? hfind) hz)).snoc _
        · intro y' hy'
          dsimp only at hy'
          split at hy'
          · exact (ih _ y' hy').snoc _
          · obtain ⟨y, hy, rfl⟩ := List.mem_map.mp hy'
            exact hx.send (ih _ y hy)
    | ignored => exact fun σ x hx => (ih σ x hx).snoc _

/-! ### The tables show the reference -/

/-- The entry `e` of side `σ` shows the note `x`: it holds the data of the
strike, and those of the strike and the release that the note was sent. -/
structure Shows (as : List Action) (σ : Side) (e : Entry) (x : Member) : Prop where
  note : e.note = x.pitch
  struck : as[x.name]? = some (.noteOn σ e.note e.start e.tick)
  linked : -1 ≤ e.link
  lone : x.partner = none ↔ e.link = -1
  silent : x.answer = none → e.lend = -1
  answer : ∀ a ∈ x.answer, e.lend = a.time ∧
    as[a.name]? = some (.noteOn σ.other e.note e.lstart e.ltick)

/-- The entries of the tables are the notes of the reference, slot by slot. -/
def Roster.Shown (as : List Action) (B : Roster) (t : Tables) : Prop :=
  ∀ σ, List.Forall₂ (Shows as σ) (t.get σ) (B.get σ)

/-- The result of a note that defers it is delivered: among the notes of the
other side, the one that the note is linked to, and no other, lies in the
slot that its link designates. -/
def Delivers (t : Tables) (B : Roster) : Action → Prop
  | .noteOff σ p _ => ∀ e ∈ firstAt (Entry.hasNote p) (t.get σ), e.2.Waiting →
      ∀ x ∈ firstAt (Member.hasPitch p) (B.get σ), ∀ y ∈ (B.get σ.other).zipIdx,
        x.2.partner = some y.1.name ↔ e.2.link.toNat = y.2
  | _ => True

instance (t : Tables) (B : Roster) : (a : Action) → Decidable (Delivers t B a)
  | .noteOff σ p _ => inferInstanceAs (Decidable (∀ e ∈ firstAt (Entry.hasNote p) (t.get σ),
      e.2.Waiting → ∀ x ∈ firstAt (Member.hasPitch p) (B.get σ), ∀ y ∈ (B.get σ.other).zipIdx,
        x.2.partner = some y.1.name ↔ e.2.link.toNat = y.2))
  | .noteOn .. => isTrue trivial
  | .ignored => isTrue trivial

namespace Shows

variable {as : List Action} {σ : Side} {e r : Entry} {x y : Member} {p t k : ℤ}

theorem hasNote_eq (h : Shows as σ e x) (p : ℤ) : e.hasNote p = x.hasPitch p := by
  rw [Entry.hasNote, Member.hasPitch, h.note]

theorem free_eq (h : Shows as σ e x) (p : ℤ) : e.free p = x.free p := by
  simp only [Entry.free, Member.free, h.note, h.lone]

theorem link_iff (h : Shows as σ e x) : e.link > -1 ↔ x.partner ≠ none := by
  have hge := h.linked
  rw [Ne, h.lone]
  omega

theorem lend_iff (h : Shows as σ e x) : e.lend > -1 ↔ ∃ a ∈ x.answer, a.time > -1 := by
  rcases ha : x.answer with - | a
  · simp [h.silent ha]
  · simp [(h.answer a ha).1]

theorem answered_iff (h : Shows as σ e x) : e.Answered ↔ x.Answered :=
  and_congr h.link_iff h.lend_iff

theorem waiting_iff (h : Shows as σ e x) : e.Waiting ↔ x.partner ≠ none ∧ ¬ x.Answered := by
  rw [← h.answered_iff, ← h.link_iff, Entry.Waiting, Entry.Answered]
  exact and_congr_right fun hlink => by simp [hlink]

theorem snoc (h : Shows as σ e x) (a : Action) : Shows (as ++ [a]) σ e x where
  note := h.note
  struck := getElem?_snoc_eq_some.mpr (Or.inl h.struck)
  linked := h.linked
  lone := h.lone
  silent := h.silent
  answer := fun b hb => ⟨(h.answer b hb).1, getElem?_snoc_eq_some.mpr (Or.inl (h.answer b hb).2)⟩

/-- Both are linked to a new note, or neither is. -/
theorem linkTo (h : Shows as σ e x) (p : ℤ) (l n : ℕ) :
    Shows as σ (e.linkTo p l) (x.linkTo p n) := by
  rcases hfree : x.free p with - | -
  · rw [Member.linkTo_of_not_free hfree, Entry.linkTo_of_not_free ((h.free_eq p).trans hfree)]
    exact h
  · rw [Member.linkTo_of_free hfree, Entry.linkTo_of_free ((h.free_eq p).trans hfree)]
    refine ⟨h.note, h.struck, ?_, ?_, h.silent, h.answer⟩
    · show -1 ≤ (l : ℤ)
      omega
    · refine iff_of_false (by simp) ?_
      show (l : ℤ) ≠ -1
      omega

/-- What is written through a link is what the note sends. -/
theorem receive (he : Shows as σ e x) (hr : Shows as σ.other r y) (hx : x.Genuine as σ)
    (hpartner : x.partner = some y.name) (n : ℕ) (t : ℤ) :
    Shows as σ.other (e.receive t r) (x.send n t y) := by
  have hpitch : e.note = r.note := by
    have hstruck : StruckNote as y.name σ.other r.note := ⟨_, _, hr.struck⟩
    exact he.note.trans ((hx.partner _ hpartner).unique hstruck).2
  rw [Member.send_of_partner hpartner]
  refine ⟨hr.note, hr.struck, hr.linked, hr.lone, fun hnone => ?_, fun a ha => ?_⟩
  · cases hnone
  · obtain rfl := Option.mem_some_iff.mp ha
    refine ⟨rfl, ?_⟩
    rw [Side.other_other]
    show as[x.name]? = some (.noteOn σ r.note e.start e.tick)
    rw [← hpitch]
    exact he.struck

end Shows

section pass

variable {cfg : Config} {as : List Action} {B : Roster} {s : Tables} {σ : Side} {p t k : ℤ}

theorem Roster.Shown.snoc (h : B.Shown as s) (a : Action) : B.Shown (as ++ [a]) s :=
  fun τ => (h τ).imp fun _ _ hex => hex.snoc a

/-- What is shown of the side that acts and of the other one. -/
theorem shown_put {as : List Action} {T R : Table} {V W : List Member}
    (h₁ : List.Forall₂ (Shows as σ) T V) (h₂ : List.Forall₂ (Shows as σ.other) R W)
    (tick : Option ℤ) : (Roster.put σ (V, W)).Shown as (.put σ T R tick) := by
  intro τ
  rcases Side.eq_or_eq_other σ τ with rfl | rfl
  · rw [Tables.get_put, Roster.get_put]
    exact h₁
  · rw [Tables.get_put_other, Roster.get_put_other]
    exact h₂

/-- A new note has no link if and only if the reference has no free note. -/
theorem newLink_eq_iff {R : Table} {W : List Member} (h : List.Forall₂ (Shows as σ) R W) (p : ℤ) :
    lastFree W p = none ↔ newLink R p = -1 := by
  have hfree : R.map (Entry.free p) = W.map (Member.free p) :=
    map_eq_of_forall₂ (fun _ _ hex => hex.free_eq p) h
  rw [lastFree_eq_none_iff, newLink_eq_neg_one_iff, ← List.forall_mem_map (P := fun b => b = false),
    ← hfree, List.forall_mem_map]

/-- The entry of a new note. -/
theorem shows_new {R : Table} {W : List Member} (h : List.Forall₂ (Shows as σ.other) R W) :
    Shows (as ++ [.noteOn σ p t k]) σ { Entry.fresh p t k with link := newLink R p }
      ⟨as.length, p, lastFree W p, none⟩ where
  note := rfl
  struck := by simp [Entry.fresh]
  linked := newLink_ge R p
  lone := newLink_eq_iff h p
  silent := fun _ => rfl
  answer := fun a ha => by cases ha

/-- A note-on. -/
theorem shown_noteOn (h : B.Shown as s) (tick : Option ℤ) :
    (B.step as.length (.noteOn σ p t k)).Shown (as ++ [.noteOn σ p t k])
      (.put σ (noteOn (s.get σ) (s.get σ.other) p t k).1
        (noteOn (s.get σ) (s.get σ.other) p t k).2 tick) := by
  have hlen : (s.get σ).length = (B.get σ).length := (h σ).length_eq
  have hold := h.snoc (.noteOn σ p t k)
  rw [Roster.step, enter]
  by_cases hroom : (s.get σ).length < maxLength
  · rw [noteOn_of_room hroom, if_pos (hlen ▸ hroom)]
    refine shown_put (List.rel_append (hold σ) (.cons (shows_new (h σ.other)) .nil)) ?_ tick
    rw [List.forall₂_map_left_iff, List.forall₂_map_right_iff]
    exact (hold σ.other).imp fun _ _ hex => hex.linkTo p _ _
  · rw [noteOn_of_full hroom, if_neg (hlen ▸ hroom)]
    exact shown_put (hold σ) (hold σ.other) tick

/-- **A note-off** whose result is delivered, if it is deferred. -/
theorem shown_noteOff (h : B.Shown as s) (hgenuine : ∀ τ, ∀ x ∈ B.get τ, x.Genuine as τ)
    (hdel : Delivers s B (.noteOff σ p t)) (tick : Option ℤ) :
    (B.step as.length (.noteOff σ p t)).Shown (as ++ [.noteOff σ p t])
      (.put σ (noteOff cfg (s.get σ) (s.get σ.other) p t σ.isInst).track
        (noteOff cfg (s.get σ) (s.get σ.other) p t σ.isInst).ref tick) := by
  have hold := h.snoc (.noteOff σ p t)
  rw [Roster.step, leave]
  rcases firstAt_forall₂ (h σ) fun _ _ hex => hex.hasNote_eq p with
    ⟨he, hx⟩ | ⟨n, e, x, he, hx, hex⟩
  · simp only [noteOff, he, hx]
    exact shown_put (hold σ) (hold σ.other) tick
  · have hn : n < (s.get σ).length := (List.getElem?_eq_some_iff.mp (firstAt_getElem? he)).1
    simp only [noteOff_track cfg _ t _ he, hx]
    refine shown_put (swapRemove_forall₂ (hold σ) hn) ?_ tick
    by_cases hw : e.Waiting
    · rw [noteOff_ref_of_waiting cfg _ t _ he hw, if_neg (hex.waiting_iff.mp hw).2]
      refine modify_forall₂_map (h σ.other) fun k r y _ hy hry => ?_
      have hslot : x.partner = some y.name ↔ e.link.toNat = k :=
        hdel _ he hw _ hx (y, k) (List.mk_mem_zipIdx_iff_getElem?.mpr hy)
      by_cases hk : e.link.toNat = k
      · -- the slot that the link designates
        rw [if_pos hk]
        exact (hex.receive hry (hgenuine σ x (firstAt_mem hx)) (hslot.mpr hk) _ t).snoc _
      · rw [if_neg hk, Member.send_of_not_partner fun hpartner => hk (hslot.mp hpartner)]
        exact hry.snoc _
    · rw [noteOff_ref_of_not_waiting cfg _ t _ he hw]
      split
      · exact hold σ.other
      · -- a note without partner sends nothing
        rename_i hans
        have hlone : x.partner = none := by
          by_contra hne
          exact hw (hex.waiting_iff.mpr ⟨hne, hans⟩)
        rw [List.forall₂_map_right_iff]
        refine (hold σ.other).imp fun r y hry => ?_
        rwa [Member.send_of_not_partner (by simp [hlone])]

/-- **One pass** goes on showing the reference. -/
theorem shown_pass {c₁ c₂ : ℤ} {s' : Tables} {p : Pass} {o : Output}
    (hstep : tablesPass cfg c₁ c₂ s p = .ok (s', o)) (h : B.Shown as s)
    (hgenuine : ∀ τ, ∀ x ∈ B.get τ, x.Genuine as τ) (hdel : Delivers s B (p.action c₁ c₂)) :
    (B.step as.length (p.action c₁ c₂)).Shown (as ++ [p.action c₁ c₂]) s' := by
  rcases tablesPass_cases hstep with ⟨side, note, t, k, tick, ha, rfl, -⟩ |
    ⟨side, note, t, tick, sent, ha, rfl, -, -⟩ | ⟨ha, hsame, -⟩
  · rw [ha]
    exact shown_noteOn h tick
  · rw [ha] at hdel ⊢
    exact shown_noteOff h hgenuine hdel _
  · rw [ha]
    intro τ
    rw [hsame τ]
    exact h.snoc _ τ

end pass

/-! ### Runs -/

/-- Every result that is deferred in the run is delivered. -/
def Delivered (cfg : Config) (scoreChannel instChannel : ℤ) (ps : List Pass) : Prop :=
  Always (fun past p => ∀ s outs,
    run (midiEventPass cfg) (initial scoreChannel instChannel) past = .ok (s, outs) →
      Delivers s.tables (roster (actions scoreChannel instChannel past))
        (p.action scoreChannel instChannel)) ps

section run

variable {cfg : Config} {c₁ c₂ : ℤ} {ps : List Pass}

/-- Delivery may be checked on tables. -/
theorem delivered_of_tables
    (h : Always (fun past p => ∀ t outs, run (tablesPass cfg c₁ c₂) noTables past = .ok (t, outs) →
      Delivers t (roster (actions c₁ c₂ past)) (p.action c₁ c₂)) ps) :
    Delivered cfg c₁ c₂ ps :=
  fun past p hp s outs hrun => h past p hp s.tables outs (run_tables hrun).1

/-- **The tables of a run show the reference**, if every result that is
deferred is delivered. -/
theorem run_shown {s : State} {outs : List Output} (hdel : Delivered cfg c₁ c₂ ps)
    (h : run (midiEventPass cfg) (initial c₁ c₂) ps = .ok (s, outs)) :
    (roster (actions c₁ c₂ ps)).Shown (actions c₁ c₂ ps) s.tables := by
  refine run_induction (C := fun _ _ => True) (fun past _ t => past <+: ps →
    (roster (actions c₁ c₂ past)).Shown (actions c₁ c₂ past) t) ?_ ?_
    (fun _ _ _ _ _ _ => trivial) (run_tables h).1 List.prefix_rfl
  · intro _ σ
    simp [actions, roster]
  · intro past outs t p t' o hpast ih _ hstep hp
    obtain ⟨s, hs, rfl⟩ := run_of_tables hpast
    rw [actions_snoc, roster_snoc]
    exact shown_pass hstep (ih ((List.prefix_append _ _).trans hp)) (roster_genuine _)
      (hdel past p hp s outs hs)

end run

end MidiTraining
