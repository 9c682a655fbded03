/-
MidiTraining/Lib/Processes.lean

Process tables.

A table gives each process identifier the image it runs, if any.  An
identifier is handed out once: all identifiers from `next` on are unused, and
zero is never handed out.  Both are fields of the table, so every operation
carries the proof that it keeps them.

Each operation has one lemma that says which images there are afterwards
(`image_spawn_iff`, `image_exec_iff`, `image_exit_iff`, `image_signal_iff`);
an invariant about a table needs no more.
-/
import Mathlib.Data.Nat.Init
import Mathlib.Logic.Function.Basic

namespace Processes

/-- A process table. -/
structure Procs (α : Type*) where
  next : ℕ
  image : ℕ → Option α
  pos : 0 < next
  fresh : ∀ pid, next ≤ pid → image pid = none

namespace Procs

variable {α : Type*}

/-- No process. -/
def empty : Procs α where
  next := 1
  image := fun _ => none
  pos := Nat.one_pos
  fresh := fun _ _ => rfl

/-- A new process, under the next identifier. -/
def spawn (P : Procs α) (a : α) : Procs α where
  next := P.next + 1
  image := Function.update P.image P.next (some a)
  pos := Nat.succ_pos _
  fresh := by
    intro pid h
    rw [Function.update_of_ne (Nat.ne_of_gt h)]
    exact P.fresh pid (Nat.le_of_succ_le h)

/-- The process goes on with another image. -/
def exec (P : Procs α) (pid : ℕ) (a : α) : Procs α where
  next := P.next
  image := Function.update P.image pid ((P.image pid).map fun _ => a)
  pos := P.pos
  fresh := by
    intro q h
    rcases eq_or_ne q pid with rfl | hq
    · rw [Function.update_self, P.fresh q h]
      rfl
    · rw [Function.update_of_ne hq]
      exact P.fresh q h

/-- The process ends. -/
def exit (P : Procs α) (pid : ℕ) : Procs α where
  next := P.next
  image := Function.update P.image pid none
  pos := P.pos
  fresh := by
    intro q h
    rcases eq_or_ne q pid with rfl | hq
    · exact Function.update_self q none P.image
    · rw [Function.update_of_ne hq]
      exact P.fresh q h

/-- The processes whose image meets `p` end. -/
def signal (P : Procs α) (p : α → Bool) : Procs α where
  next := P.next
  image := fun pid => (P.image pid).filter fun a => !p a
  pos := P.pos
  fresh := by
    intro pid h
    rw [P.fresh pid h]
    rfl

variable {P : Procs α} {pid q : ℕ} {a b : α}

/-- The next identifier is unused. -/
theorem image_next (P : Procs α) : P.image P.next = none := P.fresh P.next (Nat.le_refl _)

theorem image_spawn_of_ne (h : q ≠ P.next) : (P.spawn a).image q = P.image q :=
  Function.update_of_ne h _ _

theorem image_exec_of_ne (h : q ≠ pid) : (P.exec pid a).image q = P.image q :=
  Function.update_of_ne h _ _

/-- The process that goes on runs the new image. -/
theorem image_exec_self (h : P.image pid = some b) : (P.exec pid a).image pid = some a := by
  show Function.update P.image pid ((P.image pid).map fun _ => a) pid = some a
  rw [Function.update_self, h]
  rfl

theorem image_exit_of_ne (h : q ≠ pid) : (P.exit pid).image q = P.image q :=
  Function.update_of_ne h _ _

theorem image_exit_self : (P.exit pid).image pid = none := Function.update_self _ _ _

/-- **After a spawn** there are the new process and those before it. -/
theorem image_spawn_iff :
    (P.spawn a).image q = some b ↔ (q = P.next ∧ a = b) ∨ P.image q = some b := by
  rcases eq_or_ne q P.next with rfl | hq
  · show Function.update P.image P.next (some a) P.next = some b ↔ _
    rw [Function.update_self, P.image_next]
    simp
  · rw [image_spawn_of_ne hq]
    simp [hq]

/-- **After an exec** the process runs the new image; the others are as
before. -/
theorem image_exec_iff (h : P.image pid = some b) {c : α} :
    (P.exec pid a).image q = some c ↔ (q = pid ∧ a = c) ∨ (q ≠ pid ∧ P.image q = some c) := by
  rcases eq_or_ne q pid with rfl | hq
  · rw [image_exec_self h]
    simp
  · rw [image_exec_of_ne hq]
    simp [hq]

/-- **After an exit** there are the other processes. -/
theorem image_exit_iff : (P.exit pid).image q = some b ↔ q ≠ pid ∧ P.image q = some b := by
  rcases eq_or_ne q pid with rfl | hq
  · rw [image_exit_self]
    simp
  · rw [image_exit_of_ne hq]
    simp [hq]

/-- **After a signal** there are those it does not end. -/
theorem image_signal_iff {p : α → Bool} :
    (P.signal p).image q = some b ↔ P.image q = some b ∧ p b = false := by
  show (P.image q).filter (fun a => !p a) = some b ↔ _
  rw [Option.filter_eq_some_iff, Bool.not_eq_true']

end Procs

end Processes
