/-
MidiTraining/Lib/SwapRemove.lean

Lists used as unordered tables: search for the first entry that meets a
test, and removal of an entry by moving the last one into its place.

`swapRemove l n` overwrites position `n` with the last entry and drops the
last position.  Around the removed entry it acts only on the tail,

    swapRemove (pre ++ a :: post) pre.length = pre ++ rotateLast post,

where `rotateLast` brings the last entry of a list to its front
(`swapRemove_append`).  So nothing is lost or duplicated
(`swapRemove_perm`), and the relative order of the entries that meet a test
is kept as soon as the last one does not jump over another of them
(`filter_rotateLast`).  Where it matters which of the entries that meet a
test stands at a position, and not where, `rank` says so; `rank_swapRemove`
is what a removal does to it.  Two lists whose entries are related position by
position stay so (`swapRemove_forall₂`, `modify_forall₂_map`).
-/
import Mathlib.Data.List.Basic
import Mathlib.Data.List.Forall2
import Mathlib.Data.List.Perm.Basic
import Mathlib.Data.List.Infix
import Mathlib.Data.Nat.PSub

namespace SwapRemove

variable {α β : Type*}

theorem getElem?_snoc_eq_some {l : List α} {a b : α} {i : ℕ} :
    (l ++ [a])[i]? = some b ↔ l[i]? = some b ∨ (i = l.length ∧ a = b) := by
  rcases Nat.lt_trichotomy i l.length with hi | rfl | hi
  · rw [List.getElem?_append_left hi]
    simp [hi.ne]
  · simp
  · rw [List.getElem?_eq_none (by simp; omega), List.getElem?_eq_none (by omega)]
    simp [hi.ne']

/-! ### The first entry that meets a test -/

/-- The first entry that meets `p`, with its position. -/
def firstAt (p : α → Bool) : List α → Option (ℕ × α)
  | [] => none
  | a :: l => if p a then some (0, a) else (firstAt p l).map fun x => (x.1 + 1, x.2)

theorem firstAt_eq_none_iff {p : α → Bool} {l : List α} :
    firstAt p l = none ↔ ∀ a ∈ l, p a = false := by
  induction l with
  | nil => simp [firstAt]
  | cons a l ih => by_cases h : p a <;> simp [firstAt, h, ih]

/-- The first entry splits the list: nothing before it meets the test. -/
theorem firstAt_eq_some_iff {p : α → Bool} {l : List α} {n : ℕ} {a : α} :
    firstAt p l = some (n, a) ↔
      ∃ pre post, l = pre ++ a :: post ∧ pre.length = n ∧ p a = true ∧ ∀ b ∈ pre, p b = false := by
  induction l generalizing n with
  | nil => simp [firstAt]
  | cons b l ih =>
    by_cases hb : p b
    · simp only [firstAt, hb, if_true, Option.some.injEq, Prod.mk.injEq]
      constructor
      · rintro ⟨rfl, rfl⟩
        exact ⟨[], l, rfl, rfl, hb, by simp⟩
      · rintro ⟨pre, post, heq, rfl, ha, hpre⟩
        rcases pre with - | ⟨c, pre⟩
        · simp only [List.nil_append, List.cons.injEq] at heq
          exact ⟨rfl, heq.1⟩
        · simp only [List.cons_append, List.cons.injEq] at heq
          have := hpre c (by simp)
          rw [← heq.1, hb] at this
          cases this
    · simp only [firstAt, hb, Bool.false_eq_true, if_false, Option.map_eq_some_iff,
        Prod.mk.injEq, Prod.exists]
      constructor
      · rintro ⟨m, c, hm, rfl, rfl⟩
        obtain ⟨pre, post, rfl, rfl, ha, hpre⟩ := ih.mp hm
        refine ⟨b :: pre, post, rfl, rfl, ha, ?_⟩
        intro d hd
        rcases List.mem_cons.mp hd with rfl | hd
        · simpa using hb
        · exact hpre d hd
      · rintro ⟨pre, post, heq, rfl, ha, hpre⟩
        rcases pre with - | ⟨c, pre⟩
        · simp only [List.nil_append, List.cons.injEq] at heq
          rw [heq.1] at hb
          exact absurd ha hb
        · simp only [List.cons_append, List.cons.injEq] at heq
          obtain ⟨rfl, rfl⟩ := heq
          exact ⟨pre.length, a, ih.mpr ⟨pre, post, rfl, rfl, ha, fun d hd => hpre d (by simp [hd])⟩,
            rfl, rfl⟩

theorem firstAt_mem {p : α → Bool} {l : List α} {n : ℕ} {a : α} (h : firstAt p l = some (n, a)) :
    a ∈ l := by
  obtain ⟨pre, post, rfl, -⟩ := firstAt_eq_some_iff.mp h
  simp

theorem firstAt_test {p : α → Bool} {l : List α} {n : ℕ} {a : α} (h : firstAt p l = some (n, a)) :
    p a = true := by
  obtain ⟨pre, post, -, -, ha, -⟩ := firstAt_eq_some_iff.mp h
  exact ha

theorem firstAt_getElem? {p : α → Bool} {l : List α} {n : ℕ} {a : α}
    (h : firstAt p l = some (n, a)) : l[n]? = some a := by
  obtain ⟨pre, post, rfl, rfl, -⟩ := firstAt_eq_some_iff.mp h
  simp

/-- Searching a translated list, for a test that the translation respects. -/
theorem firstAt_map {f : α → β} {p : β → Bool} {q : α → Bool} (h : ∀ a, p (f a) = q a)
    (l : List α) : firstAt p (l.map f) = (firstAt q l).map fun x => (x.1, f x.2) := by
  induction l with
  | nil => rfl
  | cons a l ih =>
    rw [List.map_cons, firstAt, firstAt, h a, ih]
    rcases q a with - | -
    · rcases firstAt q l with - | ⟨n, b⟩ <;> rfl
    · rfl

/-- The first entry that meets the test heads the list of those that do. -/
theorem filter_of_firstAt {p : α → Bool} {pre post : List α} {a : α} (ha : p a = true)
    (hpre : ∀ b ∈ pre, p b = false) : (pre ++ a :: post).filter p = a :: post.filter p := by
  have : pre.filter p = [] := List.filter_eq_nil_iff.mpr fun b hb => by simp [hpre b hb]
  simp [this, ha]

/-! ### The last position that meets a test -/

/-- The last position whose entry meets `p`. -/
def lastIdx (p : α → Bool) : List α → Option ℕ
  | [] => none
  | a :: l =>
      match lastIdx p l with
      | some n => some (n + 1)
      | none => if p a then some 0 else none

theorem lastIdx_snoc (p : α → Bool) (l : List α) (a : α) :
    lastIdx p (l ++ [a]) = if p a then some l.length else lastIdx p l := by
  induction l with
  | nil => simp [lastIdx]
  | cons b l ih =>
    by_cases ha : p a
    · simp [lastIdx, ih, ha]
    · simp only [List.cons_append, lastIdx, ih, ha]
      rfl

theorem lastIdx_eq_none_iff {p : α → Bool} {l : List α} :
    lastIdx p l = none ↔ ∀ a ∈ l, p a = false := by
  induction l using List.reverseRecOn with
  | nil => simp [lastIdx]
  | append_singleton l a ih =>
    rw [lastIdx_snoc]
    by_cases ha : p a
    · simp only [ha, if_true, reduceCtorEq, false_iff, not_forall]
      exact ⟨a, by simp, by simp [ha]⟩
    · simp only [ha, Bool.false_eq_true, if_false, ih, List.mem_append, List.mem_singleton]
      constructor
      · rintro h b (hb | rfl)
        · exact h b hb
        · simpa using ha
      · exact fun h b hb => h b (Or.inl hb)

theorem lastIdx_getElem? {p : α → Bool} {l : List α} {n : ℕ} (h : lastIdx p l = some n) :
    ∃ a, l[n]? = some a ∧ p a = true := by
  induction l using List.reverseRecOn with
  | nil => simp [lastIdx] at h
  | append_singleton l a ih =>
    rw [lastIdx_snoc] at h
    by_cases ha : p a
    · obtain rfl : l.length = n := by simpa [ha] using h
      exact ⟨a, by simp, ha⟩
    · obtain ⟨b, hb, hpb⟩ := ih (by simpa [ha] using h)
      have hn : n < l.length := (List.getElem?_eq_some_iff.mp hb).1
      exact ⟨b, by rw [List.getElem?_append_left hn, hb], hpb⟩

theorem lastIdx_lt {p : α → Bool} {l : List α} {n : ℕ} (h : lastIdx p l = some n) :
    n < l.length := by
  obtain ⟨a, ha, -⟩ := lastIdx_getElem? h
  exact (List.getElem?_eq_some_iff.mp ha).1

theorem lastIdx_map {f : α → β} {p : β → Bool} {q : α → Bool} {l : List α}
    (h : ∀ a ∈ l, p (f a) = q a) : lastIdx p (l.map f) = lastIdx q l := by
  induction l using List.reverseRecOn with
  | nil => rfl
  | append_singleton l a ih =>
    rw [List.map_append, List.map_singleton, lastIdx_snoc, lastIdx_snoc, List.length_map,
      h a (by simp), ih fun b hb => h b (by simp [hb])]

/-! ### Bringing the last entry to the front -/

/-- The last entry of a list, moved to its front. -/
def rotateLast (l : List α) : List α :=
  match l.getLast? with
  | none => []
  | some z => z :: l.dropLast

@[simp] theorem rotateLast_nil : rotateLast ([] : List α) = [] := rfl

@[simp] theorem rotateLast_snoc (l : List α) (z : α) : rotateLast (l ++ [z]) = z :: l := by
  simp [rotateLast]

theorem rotateLast_perm (l : List α) : (rotateLast l).Perm l := by
  rcases List.eq_nil_or_concat l with rfl | ⟨l', z, rfl⟩
  · exact .refl _
  · rw [List.concat_eq_append, rotateLast_snoc]
    exact (List.perm_append_singleton z l').symm

/-- The entries that meet a test keep their order when the last entry of the
list is brought to the front, unless it meets the test and jumps over one
that does. -/
theorem filter_rotateLast_of {p : α → Bool} {l : List α}
    (h : ∀ z ∈ l.getLast?, p z = true → ∀ y ∈ l.dropLast, p y = false) :
    (rotateLast l).filter p = l.filter p := by
  rcases List.eq_nil_or_concat l with rfl | ⟨l', z, rfl⟩
  · rfl
  · rw [List.concat_eq_append] at h ⊢
    rw [rotateLast_snoc, List.filter_append]
    by_cases hz : p z = true
    · have hnone : l'.filter p = [] := by
        refine List.filter_eq_nil_iff.mpr fun y hy => ?_
        simp [h z (by simp) hz y (by simpa using hy)]
      simp [hz, hnone]
    · simp [hz]

/-- The last entry of `l` does not jump over another entry with the same
key. -/
def KeepsOrder [DecidableEq β] (key : α → β) (l : List α) : Prop :=
  ∀ z ∈ l.getLast?, ∀ y ∈ l.dropLast, key y ≠ key z

/-- Entries of one key keep their order when the last entry of the list is
brought to the front without jumping over one of its own key. -/
theorem filter_rotateLast [DecidableEq β] {key : α → β} {l : List α} (h : KeepsOrder key l)
    (k : β) :
    (rotateLast l).filter (fun a => decide (key a = k)) =
      l.filter (fun a => decide (key a = k)) := by
  refine filter_rotateLast_of fun z hz hk y hy => ?_
  rw [decide_eq_true_eq] at hk
  exact decide_eq_false fun hy' => h z hz y hy (hy'.trans hk.symm)

/-! ### Removal by moving the last entry -/

/-- Remove position `n` by moving the last entry into it. -/
def swapRemove (l : List α) (n : ℕ) : List α :=
  match l.getLast? with
  | none => []
  | some z => (l.set n z).dropLast

theorem swapRemove_snoc (l : List α) (z : α) (n : ℕ) :
    swapRemove (l ++ [z]) n = ((l ++ [z]).set n z).dropLast := by
  simp [swapRemove]

theorem swapRemove_append (pre : List α) (a : α) (post : List α) :
    swapRemove (pre ++ a :: post) pre.length = pre ++ rotateLast post := by
  rcases List.eq_nil_or_concat post with rfl | ⟨post', z, rfl⟩
  · rw [swapRemove_snoc, rotateLast_nil, List.append_nil]
    simp
  · rw [List.concat_eq_append, rotateLast_snoc]
    have hassoc : pre ++ a :: (post' ++ [z]) = (pre ++ a :: post') ++ [z] := by simp
    rw [hassoc, swapRemove_snoc]
    have hset : ((pre ++ a :: post') ++ [z]).set pre.length z = (pre ++ z :: post') ++ [z] := by
      simp
    rw [hset, List.dropLast_concat]

theorem swapRemove_map (f : α → β) (l : List α) (n : ℕ) :
    swapRemove (l.map f) n = (swapRemove l n).map f := by
  rcases List.eq_nil_or_concat l with rfl | ⟨l', z, rfl⟩
  · rfl
  · rw [List.concat_eq_append, swapRemove_snoc, List.map_append, List.map_singleton,
      swapRemove_snoc, List.map_dropLast, List.map_set, List.map_append, List.map_singleton]

theorem exists_split {l : List α} {n : ℕ} {a : α} (h : l[n]? = some a) :
    ∃ pre post, l = pre ++ a :: post ∧ pre.length = n := by
  obtain ⟨hn, rfl⟩ := List.getElem?_eq_some_iff.mp h
  exact ⟨l.take n, l.drop (n + 1), by simp, by simp [Nat.le_of_lt hn]⟩

theorem drop_succ_append (pre : List α) (a : α) (post : List α) :
    (pre ++ a :: post).drop (pre.length + 1) = post := by
  rw [List.drop_append]
  simp

theorem modify_append (pre : List α) (a : α) (post : List α) (f : α → α) :
    (pre ++ a :: post).modify pre.length f = pre ++ f a :: post := by
  rw [List.modify_eq_take_cons_drop (by simp)]
  simp

theorem map_modify {g : α → β} {f : α → α} {f' : β → β} (h : ∀ a, g (f a) = f' (g a)) (l : List α)
    (k : ℕ) : (l.modify k f).map g = (l.map g).modify k f' := by
  apply List.ext_getElem?
  intro i
  simp only [List.getElem?_map, List.getElem?_modify]
  rcases l[i]? with - | a
  · rfl
  · by_cases hki : k = i <;> simp [hki, h]

/-- A write to one position of a list with distinct keys: the written entry,
and the entries of the other keys. -/
theorem mem_modify_of_distinct {key : α → β} {l : List α} (hd : (l.map key).Nodup) {j : ℕ} {a b : α}
    (ha : l[j]? = some a) {f : α → α} (hb : b ∈ l.modify j f) :
    b = f a ∨ (b ∈ l ∧ key b ≠ key a) := by
  obtain ⟨pre, post, rfl, rfl⟩ := exists_split ha
  rw [modify_append] at hb
  have hd' : key a ∉ (pre ++ post).map key := by
    have hperm : ((pre ++ a :: post).map key).Perm ((a :: (pre ++ post)).map key) :=
      List.perm_middle.map key
    exact (List.nodup_cons.mp (hperm.nodup_iff.mp hd)).1
  rcases List.mem_append.mp hb with hpre | hpost
  · right
    refine ⟨List.mem_append_left _ hpre, fun heq => hd' ?_⟩
    exact heq ▸ List.mem_map_of_mem (List.mem_append_left _ hpre)
  · rcases List.mem_cons.mp hpost with rfl | hpost
    · exact Or.inl rfl
    · right
      refine ⟨by simp [hpost], fun heq => hd' ?_⟩
      exact heq ▸ List.mem_map_of_mem (List.mem_append_right _ hpost)

/-- **Nothing is lost or duplicated.** -/
theorem swapRemove_perm {l : List α} {n : ℕ} {a : α} (h : l[n]? = some a) :
    l.Perm (a :: swapRemove l n) := by
  obtain ⟨pre, post, rfl, rfl⟩ := exists_split h
  rw [swapRemove_append]
  exact List.perm_middle.trans (((rotateLast_perm post).symm.append_left pre).cons a)

theorem mem_of_mem_swapRemove {l : List α} {n : ℕ} {a : α} (h : l[n]? = some a) {b : α}
    (hb : b ∈ swapRemove l n) : b ∈ l :=
  (swapRemove_perm h).mem_iff.mpr (by simp [hb])

/-- Among distinct keys, the removed one is gone. -/
theorem key_ne_of_mem_swapRemove {key : α → β} {l : List α} (hd : (l.map key).Nodup) {n : ℕ}
    {a b : α} (ha : l[n]? = some a) (hb : b ∈ swapRemove l n) : key b ≠ key a := by
  have hperm := (swapRemove_perm ha).map key
  intro heq
  exact (List.nodup_cons.mp (hperm.nodup_iff.mp hd)).1 (heq ▸ List.mem_map_of_mem hb)

/-- Where the entries are after a removal: the last one at the freed
position, every other one where it was. -/
theorem getElem?_swapRemove {l : List α} {n : ℕ} (hn : n < l.length) (i : ℕ) :
    (swapRemove l n)[i]? =
      if i + 1 < l.length then (if i = n then l[l.length - 1]? else l[i]?) else none := by
  obtain ⟨l', z, rfl⟩ : ∃ l' z, l = l' ++ [z] := by
    rcases List.eq_nil_or_concat l with rfl | ⟨l', z, rfl⟩
    · simp at hn
    · exact ⟨l', z, List.concat_eq_append⟩
  rw [swapRemove_snoc, List.dropLast_eq_take, List.getElem?_take]
  simp only [List.length_set, List.length_append, List.length_singleton] at hn ⊢
  by_cases hi : i < l'.length
  · rw [if_pos (by omega), if_pos (by omega), List.getElem?_set]
    by_cases hin : i = n
    · subst hin
      simp [hn]
    · rw [if_neg (Ne.symm hin), if_neg hin]
  · rw [if_neg (by omega), if_neg (by omega)]

/-- An entry is left by a removal if it was elsewhere, or if it was the last
one and now stands at the freed position. -/
theorem getElem?_swapRemove_eq_some {l : List α} {n : ℕ} (hn : n < l.length) {i : ℕ} {a : α} :
    (swapRemove l n)[i]? = some a ↔
      (i ≠ n ∧ i + 1 < l.length ∧ l[i]? = some a) ∨
        (i = n ∧ n + 1 < l.length ∧ l.getLast? = some a) := by
  rw [getElem?_swapRemove hn, List.getLast?_eq_getElem?]
  by_cases hi : i + 1 < l.length
  · by_cases hin : i = n
    · subst hin
      simp [hi]
    · simp [hi, hin]
  · simp only [hi, if_false, reduceCtorEq, false_and, and_false, false_or, false_iff, not_and]
    rintro rfl h
    exact absurd h hi

/-! ### The rank of a position among the entries that meet a test -/

/-- If position `j` meets `p`, the number of entries before it that do. -/
def rank (p : α → Bool) (l : List α) (j : ℕ) : Option ℕ :=
  if l[j]?.any p then some ((l.take j).countP p) else none

section rank

variable {p q : α → Bool} {l l' : List α} {a z : α} {j n : ℕ}

theorem rank_of_test (h : l[j]? = some a) (ha : p a = true) :
    rank p l j = some ((l.take j).countP p) := by
  simp [rank, h, ha]

theorem rank_of_not_test (h : l[j]? = some a) (ha : p a = false) : rank p l j = none := by
  simp [rank, h, ha]

theorem rank_of_length_le (h : l.length ≤ j) : rank p l j = none := by
  simp [rank, List.getElem?_eq_none h]

/-- The rank depends on the outcome of the tests only. -/
theorem rank_congr (h : l.map p = l'.map p) (j : ℕ) : rank p l j = rank p l' j := by
  have hcount (l : List α) : (l.take j).countP p = ((l.map p).take j).countP id := by
    rw [← List.map_take, List.countP_map]
    rfl
  have hany (l : List α) : l[j]?.any p = (l.map p)[j]?.any id := by
    rw [List.getElem?_map, Option.any_map]
    rfl
  rw [rank, rank, hany, hcount, h, ← hany, ← hcount]

theorem rank_append (p : α → Bool) (l l' : List α) (j : ℕ) :
    rank p (l ++ l') j =
      if j < l.length then rank p l j else (rank p l' (j - l.length)).map (l.countP p + ·) := by
  split
  · rename_i hj
    rw [rank, rank, List.getElem?_append_left hj, List.take_append_of_le_length (by omega)]
  · rename_i hj
    rw [rank, rank, List.getElem?_append_right (by omega), List.take_append,
      List.take_of_length_le (by omega), List.countP_append]
    split <;> rfl

theorem rank_snoc_length (l : List α) (ha : p a = true) :
    rank p (l ++ [a]) l.length = some (l.countP p) := by
  rw [rank_of_test (a := a) (by simp) ha, List.take_left]

theorem rank_snoc_of_ne (l : List α) (a : α) (hj : j ≠ l.length) :
    rank p (l ++ [a]) j = rank p l j := by
  rw [rank_append]
  split
  · rfl
  · rw [rank_of_length_le (l := [a]) (by simp; omega), rank_of_length_le (by omega)]
    rfl

theorem rank_snoc_of_not_test (l : List α) (ha : p a = false) (j : ℕ) :
    rank p (l ++ [a]) j = rank p l j := by
  by_cases hj : j = l.length
  · subst hj
    rw [rank_of_not_test (a := a) (by simp) ha, rank_of_length_le le_rfl]
  · exact rank_snoc_of_ne l a hj

theorem rank_cons_zero (l : List α) (a : α) :
    rank p (a :: l) 0 = if p a then some 0 else none := by
  simp [rank]

theorem rank_cons_succ (l : List α) (a : α) (j : ℕ) :
    rank p (a :: l) (j + 1) = (rank p l j).map (· + if p a then 1 else 0) := by
  rw [rank, rank, List.getElem?_cons_succ, List.take_succ_cons, List.countP_cons]
  split <;> rfl

/-- The last position that meets a test, among the entries that meet a weaker
one. -/
theorem lastIdx_filter (hpq : ∀ a, p a = true → q a = true) (l : List α) :
    lastIdx p (l.filter q) = (lastIdx p l).bind (rank q l) := by
  induction l using List.reverseRecOn with
  | nil => rfl
  | append_singleton l a ih =>
    rw [lastIdx_snoc, List.filter_append]
    rcases hp : p a with - | -
    · have hrank (n : ℕ) (hn : lastIdx p l = some n) : rank q (l ++ [a]) n = rank q l n :=
        rank_snoc_of_ne l a (lastIdx_lt hn).ne
      have hsame : lastIdx p (l.filter q ++ [a].filter q) = lastIdx p (l.filter q) := by
        rcases hq : q a with - | -
        · simp [hq]
        · rw [List.filter_singleton, hq, cond_true, lastIdx_snoc, hp]
          rfl
      rw [hsame, ih, if_neg (by simp)]
      rcases hlast : lastIdx p l with - | n
      · rfl
      · exact (hrank n hlast).symm
    · have hq := hpq a hp
      rw [List.filter_singleton, hq, cond_true, lastIdx_snoc, hp, if_pos rfl, if_pos rfl,
        Option.bind_some, rank_snoc_length l hq, List.countP_eq_length_filter]

/-- A write that keeps the test, among the entries that meet it. -/
theorem filter_modify {f : α → α} (hf : ∀ a, p (f a) = p a) (l : List α) (j : ℕ) :
    (l.modify j f).filter p =
      match rank p l j with
      | some k => (l.filter p).modify k f
      | none => l.filter p := by
  induction l generalizing j with
  | nil => simp [rank]
  | cons a l ih =>
    cases j with
    | zero =>
      rw [List.modify_zero_cons, rank_cons_zero, List.filter_cons, List.filter_cons, hf]
      split <;> rfl
    | succ j =>
      rw [List.modify_succ_cons, rank_cons_succ, List.filter_cons, List.filter_cons, ih]
      rcases rank p l j with - | k <;> cases p a <;> rfl

/-! ### Ranks after a removal -/

/-- The last entry, if a removal at `n` moves it: the entries it jumps over
fail the test when it meets it, and `j` is neither its old nor its new
position. -/
def Unmoved (p : α → Bool) (l : List α) (n j : ℕ) : Prop :=
  ∀ z ∈ (l.drop (n + 1)).getLast?, p z = true →
    (∀ y ∈ (l.drop (n + 1)).dropLast, p y = false) ∧ j ≠ n ∧ j + 1 ≠ l.length

/-- The ranks in the tail of a removal. -/
theorem rank_rotateLast {e : α} {post : List α} {i : ℕ}
    (h : ∀ z ∈ post.getLast?, p z = true →
      (∀ y ∈ post.dropLast, p y = false) ∧ i ≠ 0 ∧ i ≠ post.length) :
    rank p (rotateLast post) i =
      if p e then (rank p (e :: post) i).bind Nat.ppred else rank p (e :: post) i := by
  rcases List.eq_nil_or_concat post with rfl | ⟨post', z, rfl⟩
  · rw [rotateLast_nil, rank_of_length_le (by simp)]
    cases i with
    | zero => rw [rank_cons_zero]; cases p e <;> rfl
    | succ i =>
      rw [rank_cons_succ, rank_of_length_le (by simp)]
      cases p e <;> rfl
  · rw [List.concat_eq_append] at h ⊢
    rw [rotateLast_snoc]
    have hz := h z (by simp)
    rw [List.dropLast_concat] at hz
    cases i with
    | zero =>
      have hzp : p z = false := by
        rcases hp : p z with - | -
        · rfl
        · exact absurd rfl (hz hp).2.1
      rw [rank_cons_zero, rank_cons_zero, hzp]
      cases p e <;> rfl
    | succ i =>
      have hsnoc : rank p (post' ++ [z]) i = rank p post' i := by
        by_cases hi : i = post'.length
        · have hzp : p z = false := by
            rcases hp : p z with - | -
            · rfl
            · exact absurd (by simp [hi]) (hz hp).2.2
          exact rank_snoc_of_not_test post' hzp i
        · exact rank_snoc_of_ne post' z hi
      have hold : (rank p post' i).map (· + if p z then 1 else 0) = rank p post' i := by
        rcases hp : p z with - | -
        · cases rank p post' i <;> rfl
        · -- the entries jumped over have no rank
          have hnone : rank p post' i = none := by
            unfold rank
            rw [if_neg]
            rcases hx : post'[i]? with - | y
            · simp
            · simp [(hz hp).1 y (List.mem_of_getElem? hx)]
          rw [hnone]
          rfl
      rw [rank_cons_succ, rank_cons_succ, hsnoc, hold]
      cases p e
      · cases rank p post' i <;> rfl
      · cases rank p post' i <;> rfl

/-- **Ranks after a removal.**  Among the entries like the removed one, which
is the first of them, the ranks go down by one; among the others they
stay. -/
theorem rank_swapRemove {pre post : List α} {e : α} {j : ℕ}
    (hpre : p e = true → ∀ b ∈ pre, p b = false)
    (h : Unmoved p (pre ++ e :: post) pre.length j) :
    rank p (swapRemove (pre ++ e :: post) pre.length) j =
      if p e then (rank p (pre ++ e :: post) j).bind Nat.ppred
      else rank p (pre ++ e :: post) j := by
  rw [swapRemove_append, rank_append, rank_append]
  rw [Unmoved, drop_succ_append] at h
  split
  · -- before the removed entry
    rename_i hj
    rcases he : p e with - | -
    · rfl
    · have hnone : rank p pre j = none := by
        have hb := hpre he _ (List.getElem_mem hj)
        exact rank_of_not_test (List.getElem?_eq_getElem hj) hb
      simp [hnone]
  · rename_i hj
    have hrot : rank p (rotateLast post) (j - pre.length) =
        if p e then (rank p (e :: post) (j - pre.length)).bind Nat.ppred
        else rank p (e :: post) (j - pre.length) := rank_rotateLast ?_
    · rw [hrot]
      rcases he : p e with - | -
      · rfl
      · have hzero : pre.countP p = 0 := List.countP_eq_zero.mpr fun b hb => by simp [hpre he b hb]
        simp only [hzero, if_true]
        rcases rank p (e :: post) (j - pre.length) with - | k
        · rfl
        · cases k <;> simp [Nat.ppred]
    · intro z hz hpz
      obtain ⟨hjump, hn, hlast⟩ := h z hz hpz
      refine ⟨hjump, by omega, ?_⟩
      simp only [List.length_append, List.length_cons] at hlast
      omega

end rank

/-! ### Two lists side by side -/

section sideBySide

variable {R : α → β → Prop} {l : List α} {l' : List β}

/-- Equivalent tests find related entries, at the same position. -/
theorem firstAt_forall₂ {p : α → Bool} {q : β → Bool} (h : List.Forall₂ R l l')
    (hpq : ∀ a b, R a b → p a = q b) :
    (firstAt p l = none ∧ firstAt q l' = none) ∨
      ∃ n a b, firstAt p l = some (n, a) ∧ firstAt q l' = some (n, b) ∧ R a b := by
  induction h with
  | nil => exact Or.inl ⟨rfl, rfl⟩
  | @cons a b l l' hab _ ih =>
    rcases hb : q b with - | -
    · have ha := (hpq a b hab).trans hb
      rcases ih with ⟨hl, hl'⟩ | ⟨n, x, y, hl, hl', hxy⟩
      · exact Or.inl ⟨by simp [firstAt, ha, hl], by simp [firstAt, hb, hl']⟩
      · exact Or.inr ⟨n + 1, x, y, by simp [firstAt, ha, hl], by simp [firstAt, hb, hl'], hxy⟩
    · have ha := (hpq a b hab).trans hb
      exact Or.inr ⟨0, a, b, by simp [firstAt, ha], by simp [firstAt, hb], hab⟩

/-- Two lists are side by side if their entries are, position by position. -/
theorem forall₂_iff_getElem? : List.Forall₂ R l l' ↔ l.length = l'.length ∧
    ∀ (k : ℕ) (a : α) (b : β), l[k]? = some a → l'[k]? = some b → R a b := by
  rw [List.forall₂_iff_get]
  refine and_congr_right fun _ => ⟨fun h k a b ha hb => ?_, fun h k hk hk' => ?_⟩
  · obtain ⟨hk, rfl⟩ := List.getElem?_eq_some_iff.mp ha
    obtain ⟨hk', rfl⟩ := List.getElem?_eq_some_iff.mp hb
    exact h k hk hk'
  · exact h k _ _ (List.getElem?_eq_getElem hk) (List.getElem?_eq_getElem hk')

/-- A removal at one position keeps two lists side by side. -/
theorem swapRemove_forall₂ (h : List.Forall₂ R l l') {n : ℕ} (hn : n < l.length) :
    List.Forall₂ R (swapRemove l n) (swapRemove l' n) := by
  have hlen := h.length_eq
  have hn' : n < (l.zip l').length := by
    rw [List.length_zip]
    omega
  have hfst : swapRemove l n = (swapRemove (l.zip l') n).map Prod.fst := by
    rw [← swapRemove_map, List.map_fst_zip hlen.le]
  have hsnd : swapRemove l' n = (swapRemove (l.zip l') n).map Prod.snd := by
    rw [← swapRemove_map, List.map_snd_zip hlen.ge]
  rw [hfst, hsnd, List.forall₂_map_left_iff, List.forall₂_map_right_iff, List.forall₂_same]
  rintro ⟨a, b⟩ hab
  exact List.forall₂_zip h (mem_of_mem_swapRemove (List.getElem?_eq_getElem hn') hab)

/-- A change at one position of a list next to one of all entries of the
other. -/
theorem modify_forall₂_map {R' : α → β → Prop} {f : α → α} {g : β → β} {j : ℕ}
    (h : List.Forall₂ R l l')
    (hfg : ∀ (k : ℕ) (a : α) (b : β), l[k]? = some a → l'[k]? = some b → R a b →
      R' (if j = k then f a else a) (g b)) :
    List.Forall₂ R' (l.modify j f) (l'.map g) := by
  obtain ⟨hlen, hget⟩ := forall₂_iff_getElem?.mp h
  refine forall₂_iff_getElem?.mpr ⟨by simpa using hlen, fun k x y hx hy => ?_⟩
  rw [List.getElem?_modify, Option.map_eq_map, Option.map_eq_some_iff] at hx
  rw [List.getElem?_map, Option.map_eq_some_iff] at hy
  obtain ⟨a, ha, rfl⟩ := hx
  obtain ⟨b, hb, rfl⟩ := hy
  exact hfg k a b ha hb (hget k a b ha hb)

end sideBySide

end SwapRemove
