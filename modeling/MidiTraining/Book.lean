/-
MidiTraining/Book.lean

Which notes are partners, and when each ends: the reference.

The bookkeeping of a run is read off its actions alone.  A note is named by
the position of its note-on in the run.  A new note becomes the partner of
the note of its pitch that sounds on the other side, if that one has no
partner yet; a note-off ends the note of its pitch that sounds.  There are
no tables and no links here, and nothing is ever moved.

`Book.Sane` collects what holds of the bookkeeping of every run in which no
sounding pitch is struck again.
-/
import MidiTraining.Sounding

namespace MidiTraining

open SwapRemove FaultMachine

/-! ### The bookkeeping -/

/-- What is known of the notes of a run. -/
structure Book where
  /-- The sounding note of a pitch. -/
  sounding : Side → ℤ → Option ℕ
  partner : ℕ → Option ℕ
  /-- The position and the time of the note-off of a note. -/
  ended : ℕ → Option (ℕ × ℤ)

namespace Book

/-- Before the first action. -/
def empty : Book := ⟨fun _ _ => none, fun _ => none, fun _ => none⟩

/-- Set the sounding note of a pitch. -/
def sound (B : Book) (σ : Side) (p : ℤ) (i : Option ℕ) : Book :=
  { B with sounding := fun τ q => if τ = σ ∧ q = p then i else B.sounding τ q }

/-- Make two notes partners. -/
def pair (B : Book) (n q : ℕ) : Book :=
  { B with partner := Function.update (Function.update B.partner n (some q)) q (some n) }

/-- End a note. -/
def finish (B : Book) (i n : ℕ) (t : ℤ) : Book :=
  { B with ended := Function.update B.ended i (some (n, t)) }

/-- The sounding note of a pitch, if it has no partner yet. -/
def candidate (B : Book) (σ : Side) (p : ℤ) : Option ℕ :=
  (B.sounding σ p).filter fun i => (B.partner i).isNone

/-- Enter the action at position `n`. -/
def step (n : ℕ) (B : Book) : Action → Book
  | .noteOn σ p _ _ =>
      match B.candidate σ.other p with
      | some q => (B.sound σ p (some n)).pair n q
      | none => B.sound σ p (some n)
  | .noteOff σ p t =>
      match B.sounding σ p with
      | some i => (B.sound σ p none).finish i n t
      | none => B
  | .ignored => B

end Book

/-- The bookkeeping of a run. -/
def book (as : List Action) : Book := as.zipIdx.foldl (fun B a => B.step a.2 a.1) .empty

theorem book_snoc (as : List Action) (a : Action) :
    book (as ++ [a]) = (book as).step as.length a := by
  simp [book, List.zipIdx_append]

namespace Book

variable {B : Book} {σ : Side} {p : ℤ} {n q i : ℕ}

theorem candidate_eq_some_iff :
    B.candidate σ p = some q ↔ B.sounding σ p = some q ∧ B.partner q = none := by
  simp [candidate, Option.filter_eq_some_iff]

theorem candidate_eq_none_iff :
    B.candidate σ p = none ↔ ∀ q, B.sounding σ p = some q → B.partner q ≠ none := by
  simp [candidate, Option.filter_eq_none_iff]

@[simp] theorem sound_sounding_self (i : Option ℕ) : (B.sound σ p i).sounding σ p = i := by
  simp [sound]

theorem sound_sounding_of_ne {τ : Side} {p' : ℤ} (h : ¬ (τ = σ ∧ p' = p)) (i : Option ℕ) :
    (B.sound σ p i).sounding τ p' = B.sounding τ p' := if_neg h

@[simp] theorem sound_partner (i : Option ℕ) : (B.sound σ p i).partner = B.partner := rfl

@[simp] theorem sound_ended (i : Option ℕ) : (B.sound σ p i).ended = B.ended := rfl

@[simp] theorem pair_sounding : (B.pair n q).sounding = B.sounding := rfl

@[simp] theorem pair_ended : (B.pair n q).ended = B.ended := rfl

@[simp] theorem pair_partner_right : (B.pair n q).partner q = some n := by simp [pair]

theorem pair_partner_left (h : n ≠ q) : (B.pair n q).partner n = some q := by
  simp [pair, Function.update_of_ne h]

theorem pair_partner_of_ne (hn : i ≠ n) (hq : i ≠ q) : (B.pair n q).partner i = B.partner i := by
  simp [pair, Function.update_of_ne hq, Function.update_of_ne hn]

/-- The partners after a pairing. -/
theorem pair_partner_cases (h : n ≠ q) {i' : ℕ} (hi : (B.pair n q).partner i = some i') :
    (i = q ∧ i' = n) ∨ (i = n ∧ i' = q) ∨ (i ≠ n ∧ i ≠ q ∧ B.partner i = some i') := by
  by_cases hq : i = q
  · subst hq
    rw [pair_partner_right] at hi
    exact Or.inl ⟨rfl, (Option.some_inj.mp hi).symm⟩
  · by_cases hn : i = n
    · subst hn
      rw [pair_partner_left h] at hi
      exact Or.inr (Or.inl ⟨rfl, (Option.some_inj.mp hi).symm⟩)
    · rw [pair_partner_of_ne hn hq] at hi
      exact Or.inr (Or.inr ⟨hn, hq, hi⟩)

@[simp] theorem finish_sounding (t : ℤ) : (B.finish i n t).sounding = B.sounding := rfl

@[simp] theorem finish_partner (t : ℤ) : (B.finish i n t).partner = B.partner := rfl

@[simp] theorem finish_ended_self (t : ℤ) : (B.finish i n t).ended i = some (n, t) := by
  simp [finish]

theorem finish_ended_of_ne (h : q ≠ i) (t : ℤ) : (B.finish i n t).ended q = B.ended q := by
  simp [finish, Function.update_of_ne h]

end Book

/-! ### Sounding notes and sounding pitches -/

/-- Without restrikes every pitch sounds at most once. -/
theorem sounding_nodup {as : List Action} (h : NoRestrike as) (σ : Side) :
    (sounding σ as).Nodup := by
  induction as using List.reverseRecOn with
  | nil => exact List.nodup_nil
  | append_singleton as a ih =>
    obtain ⟨hpast, hnew⟩ := always_snoc.mp h
    have hnodup := ih hpast
    rw [sounding_snoc]
    cases a with
    | noteOn τ p t k =>
      show (if τ = σ then p :: sounding σ as else sounding σ as).Nodup
      split
      · rename_i hτ
        subst hτ
        exact List.nodup_cons.mpr ⟨hnew, hnodup⟩
      · exact hnodup
    | noteOff τ p t =>
      show (if τ = σ then (sounding σ as).erase p else sounding σ as).Nodup
      split
      · exact hnodup.erase p
      · exact hnodup
    | ignored => exact hnodup

/-- The book has a sounding note of exactly the sounding pitches. -/
theorem book_sounding_eq_none_iff {as : List Action} (h : NoRestrike as) (σ : Side) (p : ℤ) :
    (book as).sounding σ p = none ↔ p ∉ sounding σ as := by
  induction as using List.reverseRecOn with
  | nil => simp [book, Book.empty, sounding]
  | append_singleton as a ih =>
    obtain ⟨hpast, -⟩ := always_snoc.mp h
    have ih := ih hpast
    rw [sounding_snoc, book_snoc]
    cases a with
    | noteOn τ p' t k =>
      have hstep : ((book as).step as.length (.noteOn τ p' t k)).sounding =
          ((book as).sound τ p' (some as.length)).sounding := by
        rw [Book.step]
        split <;> rfl
      rw [hstep]
      show _ ↔ p ∉ if τ = σ then p' :: sounding σ as else sounding σ as
      by_cases hτ : τ = σ
      · subst hτ
        rw [if_pos rfl]
        by_cases hp : p = p'
        · subst hp
          simp
        · rw [Book.sound_sounding_of_ne (fun hand => hp hand.2), ih]
          simp [hp]
      · rw [if_neg hτ, Book.sound_sounding_of_ne (fun hand => hτ hand.1.symm), ih]
    | noteOff τ p' t =>
      have hstep : ((book as).step as.length (.noteOff τ p' t)).sounding =
          ((book as).sound τ p' none).sounding := by
        rw [Book.step]
        split
        · rfl
        · rename_i hnone
          funext σ' q
          by_cases hq : σ' = τ ∧ q = p'
          · obtain ⟨rfl, rfl⟩ := hq
            rw [hnone, Book.sound_sounding_self]
          · rw [Book.sound_sounding_of_ne hq]
      rw [hstep]
      show _ ↔ p ∉ if τ = σ then (sounding σ as).erase p' else sounding σ as
      by_cases hτ : τ = σ
      · subst hτ
        rw [if_pos rfl, (sounding_nodup hpast τ).mem_erase_iff]
        by_cases hp : p = p'
        · subst hp
          simp
        · rw [Book.sound_sounding_of_ne (fun hand => hp hand.2), ih]
          simp [hp]
      · rw [if_neg hτ, Book.sound_sounding_of_ne (fun hand => hτ hand.1.symm), ih]
    | ignored => exact ih

/-! ### What holds of every bookkeeping -/

/-- The note `i` was struck at pitch `p` on side `σ`. -/
def StruckNote (as : List Action) (i : ℕ) (σ : Side) (p : ℤ) : Prop :=
  ∃ t k, as[i]? = some (.noteOn σ p t k)

theorem StruckNote.snoc {as : List Action} {i : ℕ} {σ : Side} {p : ℤ} (h : StruckNote as i σ p)
    (a : Action) : StruckNote (as ++ [a]) i σ p := by
  obtain ⟨t, k, hi⟩ := h
  exact ⟨t, k, getElem?_snoc_eq_some.mpr (Or.inl hi)⟩

theorem StruckNote.lt {as : List Action} {i : ℕ} {σ : Side} {p : ℤ} (h : StruckNote as i σ p) :
    i < as.length := by
  obtain ⟨t, k, hi⟩ := h
  exact (List.getElem?_eq_some_iff.mp hi).1

/-- A note is struck on one side and at one pitch. -/
theorem StruckNote.unique {as : List Action} {i : ℕ} {σ σ' : Side} {p p' : ℤ}
    (h : StruckNote as i σ p) (h' : StruckNote as i σ' p') : σ = σ' ∧ p = p' := by
  obtain ⟨t, k, hi⟩ := h
  obtain ⟨t', k', hi'⟩ := h'
  rw [hi] at hi'
  cases hi'
  exact ⟨rfl, rfl⟩

/-- Notes of the two sides are different notes. -/
theorem StruckNote.ne_of_other {as : List Action} {i j : ℕ} {σ : Side} {p p' : ℤ}
    (h : StruckNote as i σ p) (h' : StruckNote as j σ.other p') : i ≠ j := by
  rintro rfl
  exact Side.ne_other σ (h.unique h').1

theorem struckNote_snoc {as : List Action} {a : Action} {i : ℕ} {σ : Side} {p : ℤ}
    (h : StruckNote (as ++ [a]) i σ p) :
    StruckNote as i σ p ∨ (i = as.length ∧ ∃ t k, a = .noteOn σ p t k) := by
  obtain ⟨t, k, hi⟩ := h
  rcases getElem?_snoc_eq_some.mp hi with hold | ⟨rfl, rfl⟩
  · exact Or.inl ⟨t, k, hold⟩
  · exact Or.inr ⟨rfl, t, k, rfl⟩

/-- What holds of the bookkeeping of every run without restrikes: a note that
sounds was struck and has not ended, and partners are struck on the two sides
of one pitch. -/
structure Book.Sane (as : List Action) (B : Book) : Prop where
  struck : ∀ σ p i, B.sounding σ p = some i → StruckNote as i σ p ∧ B.ended i = none
  /-- A struck note sounds until it ends. -/
  alive : ∀ i σ p, StruckNote as i σ p → B.ended i = none → B.sounding σ p = some i
  symm : ∀ i i', B.partner i = some i' → B.partner i' = some i
  partners : ∀ i i', B.partner i = some i' →
    ∃ σ p, StruckNote as i σ p ∧ StruckNote as i' σ.other p
  ended_lt : ∀ i j t, B.ended i = some (j, t) → i < as.length ∧ j < as.length
  /-- A note-off ends one note. -/
  ended_inj : ∀ i i' j t t', B.ended i = some (j, t) → B.ended i' = some (j, t') → i = i'

namespace Book.Sane

variable {as : List Action} {B : Book} {σ : Side} {p : ℤ}

/-- The partner of a note was struck on the other side at its pitch. -/
theorem partner_struck (h : Sane as B) {i i' : ℕ} (hi : B.partner i = some i')
    (hs : StruckNote as i σ p) : StruckNote as i' σ.other p := by
  obtain ⟨σ', p', h1, h2⟩ := h.partners i i' hi
  obtain ⟨rfl, rfl⟩ := h1.unique hs
  exact h2

theorem partners_snoc (h : Sane as B) (a : Action) (i i' : ℕ) (hi : B.partner i = some i') :
    ∃ σ p, StruckNote (as ++ [a]) i σ p ∧ StruckNote (as ++ [a]) i' σ.other p := by
  obtain ⟨σ, p, hs, hs'⟩ := h.partners i i' hi
  exact ⟨σ, p, hs.snoc a, hs'.snoc a⟩

/-- A new note, before it is paired. -/
theorem sound (h : Sane as B) (hnone : B.sounding σ p = none) (t k : ℤ) :
    Sane (as ++ [.noteOn σ p t k]) (B.sound σ p (some as.length)) where
  struck := by
    intro σ' p' i hi
    by_cases hsame : σ' = σ ∧ p' = p
    · obtain ⟨rfl, rfl⟩ := hsame
      rw [sound_sounding_self] at hi
      cases hi
      refine ⟨⟨t, k, by simp⟩, ?_⟩
      by_contra hend
      obtain ⟨⟨j, e⟩, hje⟩ := Option.ne_none_iff_exists'.mp hend
      exact absurd (h.ended_lt _ _ _ hje).1 (lt_irrefl _)
    · rw [sound_sounding_of_ne hsame] at hi
      obtain ⟨hstruck, hend⟩ := h.struck _ _ _ hi
      exact ⟨hstruck.snoc _, hend⟩
  alive := by
    intro i σ' p' hstruck hend
    rcases struckNote_snoc hstruck with hold | ⟨rfl, _, _, heq⟩
    · have hi := h.alive i σ' p' hold hend
      rw [sound_sounding_of_ne, hi]
      rintro ⟨rfl, rfl⟩
      rw [hnone] at hi
      cases hi
    · cases heq
      exact sound_sounding_self _
  symm := h.symm
  partners := h.partners_snoc _
  ended_lt := by
    intro i j e hij
    have := h.ended_lt i j e hij
    rw [List.length_append]
    omega
  ended_inj := h.ended_inj

/-- Two notes without partner, on the two sides of one pitch, are paired. -/
theorem pair (h : Sane as B) {n q : ℕ} (hn : StruckNote as n σ p) (hq : StruckNote as q σ.other p)
    (hnp : B.partner n = none) (hqp : B.partner q = none) : Sane as (B.pair n q) where
  struck := h.struck
  alive := h.alive
  symm := by
    intro i i' hi
    rcases pair_partner_cases (hn.ne_of_other hq) hi with ⟨rfl, rfl⟩ | ⟨rfl, rfl⟩ | ⟨-, -, hold⟩
    · exact pair_partner_left (hn.ne_of_other hq)
    · exact pair_partner_right
    · -- the partner of another note is neither of the two
      have hback := h.symm i i' hold
      have hn' : i' ≠ n := by
        rintro rfl
        rw [hnp] at hback
        cases hback
      have hq' : i' ≠ q := by
        rintro rfl
        rw [hqp] at hback
        cases hback
      rw [pair_partner_of_ne hn' hq']
      exact hback
  partners := by
    intro i i' hi
    rcases pair_partner_cases (hn.ne_of_other hq) hi with ⟨rfl, rfl⟩ | ⟨rfl, rfl⟩ | ⟨-, -, hold⟩
    · exact ⟨σ.other, p, hq, by rwa [Side.other_other]⟩
    · exact ⟨σ, p, hn, hq⟩
    · exact h.partners i i' hold
  ended_lt := h.ended_lt
  ended_inj := h.ended_inj

/-- The sounding note of a pitch ends. -/
theorem finish (h : Sane as B) {i₀ : ℕ} (hi₀ : B.sounding σ p = some i₀) (t : ℤ) :
    Sane (as ++ [.noteOff σ p t]) ((B.sound σ p none).finish i₀ as.length t) where
  struck := by
    intro σ' p' i hi
    by_cases hsame : σ' = σ ∧ p' = p
    · obtain ⟨rfl, rfl⟩ := hsame
      simp at hi
    · rw [finish_sounding, sound_sounding_of_ne hsame] at hi
      obtain ⟨hstruck, hend⟩ := h.struck _ _ _ hi
      have hne : i ≠ i₀ := by
        rintro rfl
        exact hsame (hstruck.unique (h.struck _ _ _ hi₀).1)
      exact ⟨hstruck.snoc _, by rw [finish_ended_of_ne hne, sound_ended, hend]⟩
  alive := by
    intro i σ' p' hstruck hend
    have hne : i ≠ i₀ := by
      rintro rfl
      simp at hend
    rw [finish_ended_of_ne hne, sound_ended] at hend
    rcases struckNote_snoc hstruck with hold | ⟨-, _, _, heq⟩
    · have hi := h.alive i σ' p' hold hend
      rw [finish_sounding, sound_sounding_of_ne, hi]
      rintro ⟨rfl, rfl⟩
      rw [hi₀] at hi
      exact hne (Option.some_inj.mp hi).symm
    · cases heq
  symm := h.symm
  partners := h.partners_snoc _
  ended_lt := by
    intro i j e hij
    rw [List.length_append]
    by_cases hi : i = i₀
    · subst hi
      rw [finish_ended_self] at hij
      cases hij
      have := (h.struck _ _ _ hi₀).1.lt
      simp
      omega
    · rw [finish_ended_of_ne hi, sound_ended] at hij
      have := h.ended_lt i j e hij
      omega
  ended_inj := by
    have hold {i j : ℕ} {e : ℤ} (hi : i ≠ i₀)
        (hij : ((B.sound σ p none).finish i₀ as.length t).ended i = some (j, e)) :
        B.ended i = some (j, e) ∧ j ≠ as.length := by
      rw [finish_ended_of_ne hi, sound_ended] at hij
      exact ⟨hij, (h.ended_lt i j e hij).2.ne⟩
    intro i i' j e e' hij hij'
    by_cases hi : i = i₀
    · subst hi
      rw [finish_ended_self] at hij
      by_contra hne
      obtain ⟨-, hj⟩ := hold (Ne.symm hne) hij'
      cases hij
      exact hj rfl
    · obtain ⟨hbefore, hj⟩ := hold hi hij
      by_cases hi' : i' = i₀
      · subst hi'
        rw [finish_ended_self] at hij'
        cases hij'
        exact absurd rfl hj
      · exact h.ended_inj _ _ _ _ _ hbefore (hold hi' hij').1

/-- Actions that enter nothing. -/
theorem skip (h : Sane as B) {a : Action} (ha : ∀ σ p t k, a ≠ .noteOn σ p t k) :
    Sane (as ++ [a]) B where
  struck := fun σ p i hi => ⟨(h.struck σ p i hi).1.snoc a, (h.struck σ p i hi).2⟩
  alive := by
    intro i σ p hstruck hend
    rcases struckNote_snoc hstruck with hold | ⟨-, t, k, heq⟩
    · exact h.alive i σ p hold hend
    · exact absurd heq (ha σ p t k)
  symm := h.symm
  partners := by
    intro i i' hi
    obtain ⟨σ, p, hs, hs'⟩ := h.partners i i' hi
    exact ⟨σ, p, hs.snoc a, hs'.snoc a⟩
  ended_lt := by
    intro i j t hij
    have := h.ended_lt i j t hij
    rw [List.length_append]
    omega
  ended_inj := h.ended_inj

theorem partner_lt (h : Sane as B) {i i' : ℕ} (hi : B.partner i = some i') : i < as.length := by
  obtain ⟨σ, p, hs, -⟩ := h.partners i i' hi
  exact hs.lt

theorem partner_length (h : Sane as B) : B.partner as.length = none := by
  by_contra hne
  obtain ⟨i', hi'⟩ := Option.ne_none_iff_exists'.mp hne
  exact absurd (h.partner_lt hi') (lt_irrefl _)

end Book.Sane

/-- **The bookkeeping of a run without restrikes is sane.** -/
theorem book_sane {as : List Action} (h : NoRestrike as) : (book as).Sane as := by
  induction as using List.reverseRecOn with
  | nil =>
    refine ⟨?_, ?_, ?_, ?_, ?_, ?_⟩ <;> simp [book, Book.empty, StruckNote]
  | append_singleton as a ih =>
    obtain ⟨hpast, hnew⟩ := always_snoc.mp h
    have hsane := ih hpast
    rw [book_snoc]
    cases a with
    | noteOn σ p t k =>
      have hnone : (book as).sounding σ p = none := (book_sounding_eq_none_iff hpast σ p).mpr hnew
      have hsound := hsane.sound hnone t k
      rw [Book.step]
      split
      · rename_i q hq
        obtain ⟨hsq, hqp⟩ := Book.candidate_eq_some_iff.mp hq
        refine hsound.pair ⟨t, k, by simp⟩ ((hsane.struck _ _ _ hsq).1.snoc _) ?_ hqp
        exact hsane.partner_length
      · exact hsound
    | noteOff σ p t =>
      rw [Book.step]
      split
      · rename_i i hi
        exact hsane.finish hi t
      · exact hsane.skip (by simp)
    | ignored => exact hsane.skip (by simp)

end MidiTraining
