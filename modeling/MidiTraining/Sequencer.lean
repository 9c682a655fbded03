/-
MidiTraining/Sequencer.lean

The input buffer of the ALSA library, between the sequencer and
`midi_event`.

    do {
      time = tmsec();
      snd_seq_event_input(seq_handle, &ev);
      …
    } while (snd_seq_event_input_pending(seq_handle, 0) > 0);

`snd_seq_event_input` reads as many events as fit into a buffer of its own,
and from then on takes them from there.  What is left in the buffer is
unknown to the `poll` in the loop of `main`, so every event must have been
taken when `midi_event` returns.  The events are not of one size: one of
variable length is followed by the cells of its data, which `decode` skips.

`MidiTraining.Event` has a call of `midi_event` handle "an event and those
pending after it".  Here these are the events of one read, all of them and in
order, and the buffer is empty after the call (`wake_ok`).  The program on
the buffer is therefore the session of `MidiTraining.Session`, as long as the
reads succeed.  `midi_event` does not look at the result of
`snd_seq_event_input`: at the first read that fails while `main` is in its
loop, it uses the `NULL` that it was handed (`client_runs_or_crashes`).
-/
import MidiTraining.Session

namespace MidiTraining

open SwapRemove FaultMachine

/-! ### The buffer -/

/-- `SND_SEQ_IBUF_SIZE`. -/
def ibufSize : ℕ := 500

/-- `sizeof(snd_seq_event_t)`. -/
def eventSize : ℕ := 28

/-- A cell of the buffer, read as a `snd_seq_event_t`: what `midi_event` uses
of it, `snd_seq_ev_is_variable(ev)` and `ev->data.ext.len`. -/
structure Cell where
  ev : Event
  isVariable : Bool
  len : ℕ
  deriving DecidableEq, Repr

/-- What `snd_seq_t` keeps for the input.  The lengths are `size_t`; none is
decremented below zero (`Sequencer.Holds`). -/
structure Sequencer where
  ibuf : Fin ibufSize → Cell
  ibufptr : ℕ
  ibuflen : ℕ

/-- The buffer after `calloc`. -/
def Sequencer.opened : Sequencer where
  ibuf _ := ⟨⟨0, .other, 0, 0, 0, 0⟩, false, 0⟩
  ibufptr := 0
  ibuflen := 0

/-- What a successful `read` puts into the buffer: it blocks until there is
something. -/
structure Delivery where
  cells : List Cell
  nonempty : cells ≠ []
  fits : cells.length ≤ ibufSize

/-- `-errno`, such as `-ENOSPC` after an overrun of the sequencer. -/
structure Errno where
  code : ℤ
  negative : code < 0

/-- What a read of the sequencer returns. -/
abbrev Read := Except Errno Delivery

/-- How the program on the buffer stops. -/
inductive Crash
  /-- `ev` is `NULL` where `midi_event` uses it. -/
  | null
  /-- `ibufptr` is not in the buffer. -/
  | outside
  /-- `midi_event` is still in its loop. -/
  | unfinished
  | fault (f : Fault)
  deriving DecidableEq, Repr

/-- A read replaces the buffer from its beginning. -/
def Sequencer.load (seq : Sequencer) (d : Delivery) : Sequencer where
  ibuf i := if h : i.1 < d.cells.length then d.cells[i.1] else seq.ibuf i
  ibufptr := 0
  ibuflen := d.cells.length

/-- `snd_seq_event_read_buffer`. -/
def eventReadBuffer (seq : Sequencer) : Read → Sequencer × ℤ
  | .error e => (seq, e.code)
  | .ok d => (seq.load d, d.cells.length)

/-- The cells of the data of an event: `ncells`, if it is variable. -/
def Cell.ncells (c : Cell) : ℕ :=
  if c.isVariable then (c.len + eventSize - 1) / eventSize else 0

/-- `snd_seq_event_retrieve_buffer`: the result, and the event for `*retp`. -/
def eventRetrieveBuffer (seq : Sequencer) : Except Crash (Sequencer × ℤ × Option Cell) :=
  if h : seq.ibufptr < ibufSize then
    let ev := seq.ibuf ⟨seq.ibufptr, h⟩
    let seq := { seq with ibufptr := seq.ibufptr + 1, ibuflen := seq.ibuflen - 1 }
    if ev.isVariable = false then .ok (seq, 1, some ev)
    else if seq.ibuflen < ev.ncells then
      -- clear buffer; `-EINVAL`
      .ok ({ seq with ibuflen := 0 }, -22, none)
    else
      .ok ({ seq with ibuflen := seq.ibuflen - ev.ncells, ibufptr := seq.ibufptr + ev.ncells }, 1,
        some ev)
  else .error .outside

/-- `snd_seq_event_input`; `none` is the `NULL` that it starts with. -/
def eventInput (seq : Sequencer) (read : Read) : Except Crash (Sequencer × ℤ × Option Cell) :=
  if seq.ibuflen = 0 then
    let r := eventReadBuffer seq read
    if r.2 < 0 then .ok (r.1, r.2, none) else eventRetrieveBuffer r.1
  else eventRetrieveBuffer seq

/-- `snd_seq_event_input_pending(seq, 0)`: what is left in the buffer. -/
def eventInputPending (seq : Sequencer) : ℤ := seq.ibuflen

/-! ### `midi_event` on the buffer -/

/-- What a call of `midi_event` meets: in its round `k`, the reading of the
clock and the result of a read, if it makes one. -/
structure Wake where
  clock : ℕ → ℤ
  read : ℕ → Read

/-- Round `k` of a call. -/
def midiEventRound (cfg : Config) (w : Wake) (k : ℕ) (s : State) (seq : Sequencer) :
    Except Crash (State × Sequencer × Output) :=
  match eventInput seq (w.read k) with
  | .error e => .error e
  | .ok (_, _, none) => .error .null
  | .ok (seq, _, some ev) =>
    ((midiEventPass cfg s ⟨k = 0, w.clock k, ev.ev⟩).mapError Crash.fault).map
      fun r => (r.1, seq, r.2)

/-- At most `n` rounds of a call, from round `k` on. -/
def midiEventRounds (cfg : Config) (w : Wake) :
    ℕ → ℕ → State → Sequencer → Except Crash (State × Sequencer × List Output)
  | 0, _, _, _ => .error .unfinished
  | n + 1, k, s, seq =>
    match midiEventRound cfg w k s seq with
    | .error e => .error e
    | .ok (s, seq, out) =>
      if eventInputPending seq > 0 then
        (midiEventRounds cfg w n (k + 1) s seq).map fun r => (r.1, r.2.1, out :: r.2.2)
      else .ok (s, seq, [out])

/-- `midi_event`: no more rounds than the buffer has cells. -/
def midiEventWake (cfg : Config) (w : Wake) (s : State) (seq : Sequencer) :
    Except Crash (State × Sequencer × List Output) :=
  midiEventRounds cfg w ibufSize 0 s seq

/-! ### Events and their data -/

/-- The events in a list of cells, the first `k` cells being the data of an
event before them; `none` if the data of an event are cut off. -/
def decode : ℕ → List Cell → Option (List Event)
  | 0, [] => some []
  | _ + 1, [] => none
  | 0, c :: cs => (decode c.ncells cs).map fun evs => c.ev :: evs
  | k + 1, _ :: cs => decode k cs

/-- An event and the cells of its data. -/
structure Packet where
  head : Cell
  data : List Cell
  whole : data.length = head.ncells

/-- The cells of a list of events. -/
def encode (ps : List Packet) : List Cell := ps.flatMap fun p => p.head :: p.data

theorem decode_append (data cs : List Cell) : decode data.length (data ++ cs) = decode 0 cs := by
  induction data with
  | nil => rfl
  | cons c data ih => exact ih

theorem decode_eq (k : ℕ) (cs : List Cell) :
    decode k cs = if k ≤ cs.length then decode 0 (cs.drop k) else none := by
  induction cs generalizing k with
  | nil =>
    cases k with
    | zero => rfl
    | succ k => rfl
  | cons c cs ih =>
    cases k with
    | zero => rfl
    | succ k =>
      rw [decode, ih, List.length_cons, List.drop_succ_cons]
      exact if_congr (by omega) rfl rfl

/-- One event after the other. -/
theorem decode_cons (c : Cell) (cs : List Cell) :
    decode 0 (c :: cs) = (if c.ncells ≤ cs.length then decode 0 (cs.drop c.ncells) else none).map
      fun evs => c.ev :: evs := by
  rw [decode, decode_eq]

/-- **The data are skipped**: what is decoded are the events. -/
theorem decode_encode (ps : List Packet) :
    decode 0 (encode ps) = some (ps.map fun p => p.head.ev) := by
  induction ps with
  | nil => rfl
  | cons p ps ih =>
    show (decode p.head.ncells (p.data ++ encode ps)).map _ = _
    rw [← p.whole, decode_append, ih]
    rfl

/-! ### Taking events from the buffer -/

/-- The cells left in the buffer. -/
structure Sequencer.Holds (seq : Sequencer) (cs : List Cell) : Prop where
  len : seq.ibuflen = cs.length
  cell (i : ℕ) (h : i < cs.length) :
    ∃ h' : seq.ibufptr + i < ibufSize, seq.ibuf ⟨seq.ibufptr + i, h'⟩ = cs[i]

theorem holds_load (seq : Sequencer) (d : Delivery) : (seq.load d).Holds d.cells where
  len := rfl
  cell i h := by
    have hi : 0 + i < ibufSize := by
      rw [Nat.zero_add]
      exact h.trans_le d.fits
    have hread : 0 + i < d.cells.length := by rwa [Nat.zero_add]
    exact ⟨hi, (dif_pos hread).trans (getElem_congr_idx (Nat.zero_add i))⟩

/-- **One event is taken**, with its data, or its data are cut off. -/
theorem eventRetrieveBuffer_of_holds {seq : Sequencer} {c : Cell} {cs : List Cell}
    (h : seq.Holds (c :: cs)) :
    (c.ncells ≤ cs.length ∧ ∃ seq', eventRetrieveBuffer seq = .ok (seq', 1, some c) ∧
      seq'.Holds (cs.drop c.ncells)) ∨
    (¬ c.ncells ≤ cs.length ∧ ∃ seq', eventRetrieveBuffer seq = .ok (seq', -22, none)) := by
  obtain ⟨hptr, hcell⟩ := h.cell 0 (Nat.succ_pos _)
  have hlen : seq.ibuflen - 1 = cs.length := by
    rw [h.len]
    rfl
  have hev : seq.ibuf ⟨seq.ibufptr, hptr⟩ = c := hcell
  have hrest (n : ℕ) (hn : n ≤ cs.length) :
      Sequencer.Holds ⟨seq.ibuf, seq.ibufptr + 1 + n, cs.length - n⟩ (cs.drop n) := by
    refine ⟨(List.length_drop).symm, fun i hi => ?_⟩
    rw [List.length_drop] at hi
    obtain ⟨hpos, hget⟩ := h.cell (n + i + 1) (Nat.succ_lt_succ (by omega))
    have heq : seq.ibufptr + 1 + n + i = seq.ibufptr + (n + i + 1) := by omega
    refine ⟨heq ▸ hpos, ?_⟩
    rw [List.getElem_drop]
    have hidx : (⟨seq.ibufptr + 1 + n + i, heq ▸ hpos⟩ : Fin ibufSize) =
        ⟨seq.ibufptr + (n + i + 1), hpos⟩ := Fin.ext heq
    rw [hidx, hget]
    rfl
  rw [eventRetrieveBuffer, dif_pos (show seq.ibufptr < ibufSize from hptr)]
  simp only [hev, hlen]
  by_cases hvar : c.isVariable = false
  · have hzero : c.ncells = 0 := by
      rw [Cell.ncells, hvar]
      rfl
    rw [if_pos hvar, hzero]
    exact Or.inl ⟨Nat.zero_le _, _, rfl, hrest 0 (Nat.zero_le _)⟩
  · rw [if_neg hvar]
    by_cases hfit : c.ncells ≤ cs.length
    · rw [if_neg (by omega)]
      exact Or.inl ⟨hfit, _, rfl, hrest _ hfit⟩
    · rw [if_pos (by omega)]
      exact Or.inr ⟨hfit, _, rfl⟩

/-- A buffer that holds something is not read into. -/
theorem eventInput_of_holds {seq : Sequencer} {c : Cell} {cs : List Cell}
    (h : seq.Holds (c :: cs)) (read : Read) : eventInput seq read = eventRetrieveBuffer seq := by
  have hne : seq.ibuflen ≠ 0 := by
    rw [h.len]
    exact Nat.succ_ne_zero _
  rw [eventInput, if_neg hne]

theorem eventInput_of_error {seq : Sequencer} (h : seq.ibuflen = 0) (e : Errno) :
    eventInput seq (.error e) = .ok (seq, e.code, none) := by
  rw [eventInput, if_pos h]
  exact if_pos e.negative

theorem eventInput_of_ok {seq : Sequencer} (h : seq.ibuflen = 0) (d : Delivery) (read : Read) :
    eventInput seq (.ok d) = eventInput (seq.load d) read := by
  obtain ⟨c, cs, hcs⟩ := List.exists_cons_of_ne_nil d.nonempty
  have hloaded : (seq.load d).Holds (c :: cs) := hcs ▸ holds_load seq d
  have hnonneg : ¬ ((d.cells.length : ℤ) < 0) := by omega
  rw [eventInput_of_holds hloaded, eventInput, if_pos h]
  exact if_neg hnonneg

/-! ### A call -/

/-- The passes of the events, from round `k` on. -/
def Wake.passes (w : Wake) : ℕ → List Event → List Pass
  | _, [] => []
  | k, ev :: evs => ⟨k = 0, w.clock k, ev⟩ :: w.passes (k + 1) evs

section rounds

variable {cfg : Config} {w : Wake}

/-- A round that takes an event. -/
theorem midiEventRound_of_input {k : ℕ} {s s' : State} {seq seq' : Sequencer} {c : Cell} {r : ℤ}
    {out : Output} (hin : eventInput seq (w.read k) = .ok (seq', r, some c))
    (hpass : midiEventPass cfg s ⟨k = 0, w.clock k, c.ev⟩ = .ok (s', out)) :
    midiEventRound cfg w k s seq = .ok (s', seq', out) := by
  rw [midiEventRound, hin]
  show ((midiEventPass cfg s ⟨k = 0, w.clock k, c.ev⟩).mapError Crash.fault).map _ = _
  rw [hpass]
  rfl

/-- A round that takes none. -/
theorem midiEventRound_of_null {k : ℕ} {seq seq' : Sequencer} {r : ℤ}
    (hin : eventInput seq (w.read k) = .ok (seq', r, none)) (s : State) :
    midiEventRound cfg w k s seq = .error .null := by
  rw [midiEventRound, hin]

theorem midiEventRounds_of_round {n k : ℕ} {s s' : State} {seq seq' : Sequencer} {out : Output}
    (h : midiEventRound cfg w k s seq = .ok (s', seq', out)) :
    midiEventRounds cfg w (n + 1) k s seq =
      if eventInputPending seq' > 0 then
        (midiEventRounds cfg w n (k + 1) s' seq').map fun r => (r.1, r.2.1, out :: r.2.2)
      else .ok (s', seq', [out]) := by
  rw [midiEventRounds, h]

theorem midiEventRounds_of_error {n k : ℕ} {s : State} {seq : Sequencer} {e : Crash}
    (h : midiEventRound cfg w k s seq = .error e) :
    midiEventRounds cfg w (n + 1) k s seq = .error e := by
  rw [midiEventRounds, h]

/-- No pass faults from here on. -/
def Runs (cfg : Config) (s : State) : Prop :=
  ∀ ps, ∃ s' outs, run (midiEventPass cfg) s ps = .ok (s', outs)

theorem Runs.pass {s : State} (h : Runs cfg s) (p : Pass) :
    ∃ s' o, midiEventPass cfg s p = .ok (s', o) ∧ Runs cfg s' := by
  rcases hstep : midiEventPass cfg s p with e | ⟨s', o⟩
  · obtain ⟨s', outs, hrun⟩ := h [p]
    rw [run_cons_of_error [] hstep] at hrun
    cases hrun
  · refine ⟨s', o, rfl, fun ps => ?_⟩
    obtain ⟨s₂, outs, hrun⟩ := h (p :: ps)
    rw [run_cons_of_ok ps hstep] at hrun
    rcases hrest : run (midiEventPass cfg) s' ps with e | ⟨s₃, os⟩
    · rw [hrest] at hrun
      cases hrun
    · exact ⟨s₃, os, rfl⟩

/-- **The rounds take what the buffer holds**, and leave it empty; or the
data of its last event are cut off, and then `midi_event` uses `NULL`.  The
induction is on the rounds, each of which shortens what is left. -/
theorem rounds_of_holds {n k : ℕ} {s : State} {seq : Sequencer} {cs : List Cell}
    (hs : Runs cfg s) (hseq : seq.Holds cs) (hne : cs ≠ []) (hn : cs.length ≤ n) :
    (∀ evs, decode 0 cs = some evs → ∃ s' seq' outs,
      run (midiEventPass cfg) s (w.passes k evs) = .ok (s', outs) ∧
        midiEventRounds cfg w n k s seq = .ok (s', seq', outs) ∧ seq'.ibuflen = 0) ∧
    (decode 0 cs = none → midiEventRounds cfg w n k s seq = .error .null) := by
  induction n generalizing k s seq cs with
  | zero => exact absurd (List.length_eq_zero_iff.mp (Nat.le_zero.mp hn)) hne
  | succ n ih =>
    obtain ⟨c, cs, rfl⟩ := List.exists_cons_of_ne_nil hne
    have hin := eventInput_of_holds hseq (w.read k)
    have hdecode := decode_cons c cs
    rcases eventRetrieveBuffer_of_holds hseq with ⟨hfit, seq', hret, hseq'⟩ | ⟨hcut, seq', hret⟩
    · rw [if_pos hfit] at hdecode
      obtain ⟨s', o, hpass, hs'⟩ := hs.pass ⟨k = 0, w.clock k, c.ev⟩
      have hround := midiEventRound_of_input (hin.trans hret) hpass
      rw [midiEventRounds_of_round hround, hdecode, eventInputPending, hseq'.len]
      by_cases hrest : cs.drop c.ncells = []
      · have hzero : ¬ ((([] : List Cell).length : ℤ) > 0) := by decide
        rw [hrest, if_neg hzero]
        refine ⟨?_, nofun⟩
        rintro evs ⟨⟩
        refine ⟨s', seq', [o], ?_, rfl, ?_⟩
        · show run (midiEventPass cfg) s [_] = _
          rw [run_cons_of_ok [] hpass]
          rfl
        · rw [hseq'.len, hrest]
          rfl
      · have hlen : (cs.drop c.ncells).length ≤ n := by
          rw [List.length_drop]
          exact (Nat.sub_le _ _).trans (Nat.le_of_succ_le_succ hn)
        have hpos : (0 : ℤ) < (cs.drop c.ncells).length :=
          Int.natCast_pos.mpr (List.length_pos_iff.mpr hrest)
        rw [if_pos hpos]
        obtain ⟨hok, hnull⟩ := @ih (k + 1) s' seq' _ hs' hseq' hrest hlen
        constructor
        · intro evs hevs
          obtain ⟨evs', hevs', rfl⟩ := Option.map_eq_some_iff.mp hevs
          obtain ⟨s₂, seq₂, outs, hrun, hrounds, hempty⟩ := hok evs' hevs'
          refine ⟨s₂, seq₂, o :: outs, ?_, ?_, hempty⟩
          · show run (midiEventPass cfg) s (_ :: w.passes (k + 1) evs') = _
            rw [run_cons_of_ok _ hpass, hrun]
            rfl
          · rw [hrounds]
            rfl
        · intro hnone
          rw [hnull (Option.map_eq_none_iff.mp hnone)]
          rfl
    · rw [if_neg hcut] at hdecode
      have hround : midiEventRound cfg w k s seq = .error .null :=
        midiEventRound_of_null (hin.trans hret) s
      rw [hdecode, midiEventRounds_of_error hround]
      exact ⟨nofun, fun _ => rfl⟩

/-- The first round reads into the buffer. -/
theorem rounds_of_read {seq : Sequencer} (hseq : seq.ibuflen = 0) {d : Delivery}
    (hread : w.read 0 = .ok d) (n : ℕ) (s : State) :
    midiEventRounds cfg w n 0 s seq = midiEventRounds cfg w n 0 s (seq.load d) := by
  cases n with
  | zero => rfl
  | succ n =>
    have hround : midiEventRound cfg w 0 s seq = midiEventRound cfg w 0 s (seq.load d) := by
      rw [midiEventRound, midiEventRound, hread, eventInput_of_ok hseq d (.ok d)]
    rw [midiEventRounds, midiEventRounds, hround]

/-- The events of the read that a call begins with. -/
def Wake.events (w : Wake) : Option (List Event) :=
  match w.read 0 with
  | .error _ => none
  | .ok d => decode 0 d.cells

/-- **A call of `midi_event`** on an empty buffer handles the events of one
read and leaves the buffer empty. -/
theorem wake_ok {s : State} (hs : Runs cfg s) {seq : Sequencer} (hseq : seq.ibuflen = 0)
    {evs : List Event} (h : w.events = some evs) :
    ∃ s' seq' outs, run (midiEventPass cfg) s (w.passes 0 evs) = .ok (s', outs) ∧
      midiEventWake cfg w s seq = .ok (s', seq', outs) ∧ seq'.ibuflen = 0 := by
  rcases hread : w.read 0 with e | d
  · rw [Wake.events, hread] at h
    cases h
  · rw [Wake.events, hread] at h
    rw [midiEventWake, rounds_of_read hseq hread]
    exact (rounds_of_holds hs (holds_load seq d) d.nonempty d.fits).1 evs h

/-- A call whose read fails. -/
theorem wake_null {s : State} (hs : Runs cfg s) {seq : Sequencer} (hseq : seq.ibuflen = 0)
    (h : w.events = none) : midiEventWake cfg w s seq = .error .null := by
  rcases hread : w.read 0 with e | d
  · have hin : eventInput seq (w.read 0) = .ok (seq, e.code, none) := by
      rw [hread]
      exact eventInput_of_error hseq e
    exact midiEventRounds_of_error (midiEventRound_of_null hin s)
  · rw [Wake.events, hread] at h
    rw [midiEventWake, rounds_of_read hseq hread]
    exact (rounds_of_holds hs (holds_load seq d) d.nonempty d.fits).2 h

end rounds

/-! ### The loop of `main` on the buffer -/

/-- One turn of the loop of `main`: whether the child exits before the test,
and what `midi_event` meets, if `poll` reports events. -/
structure Turn where
  exits : Bool
  wake : Option Wake

/-- What the loop changes. -/
structure Client where
  session : Session
  seq : Sequencer

/-- `(waitpid(pid, &status, WNOHANG)==0) || (track_inst.length>0)`. -/
def Client.waits (f : Forked) (c : Client) (t : Turn) : Client × Bool :=
  let r := c.session.waits f ⟨t.exits, none⟩
  (⟨r.1, c.seq⟩, r.2)

/-- `if (poll(pfd, npfd, 1) > 0) midi_event(…);` -/
def Client.poll (cfg : Config) (c : Client) (t : Turn) : Except Crash (Client × List Output) :=
  match t.wake with
  | none => .ok (c, [])
  | some w => (midiEventWake cfg w c.session.state c.seq).map fun r =>
      (⟨⟨c.session.child, r.1⟩, r.2.1⟩, r.2.2)

/-- The loop of `main`. -/
def client (cfg : Config) (f : Forked) :
    Loop Client → Turn → Except Crash (Loop Client × Option (List Output)) :=
  loop (Client.waits f) (Client.poll cfg)

/-- `main` enters the loop. -/
def Client.start (f : Forked) (scoreChannel instChannel : ℤ) : Loop Client :=
  ⟨⟨(Session.start f scoreChannel instChannel).state, .opened⟩, false⟩

/-- Events with the clock readings of their rounds. -/
def Wake.timed (w : Wake) : ℕ → List Event → List (ℤ × Event)
  | _, [] => []
  | k, ev :: evs => (w.clock k, ev) :: w.timed (k + 1) evs

/-- The call of `midi_event`, on events. -/
def Wake.call (w : Wake) : Option ((ℤ × Event) × List (ℤ × Event)) :=
  match w.events with
  | some (ev :: evs) => some ((w.clock 0, ev), w.timed 1 evs)
  | _ => none

/-- The turn, as a round of the session. -/
def Turn.round (t : Turn) : Round := ⟨t.exits, t.wake.bind Wake.call⟩

/-- The read of the turn succeeds, and cuts no event off. -/
def Turn.Reads (t : Turn) : Prop := ∀ w, t.wake = some w → w.events ≠ none

theorem Wake.passes_later (w : Wake) (k : ℕ) (evs : List Event) :
    w.passes (k + 1) evs = (w.timed (k + 1) evs).map fun e => ⟨false, e.1, e.2⟩ := by
  induction evs generalizing k with
  | nil => rfl
  | cons ev evs ih =>
    show _ :: w.passes (k + 2) evs = _ :: (w.timed (k + 2) evs).map _
    rw [ih]
    rfl

/-- The passes of a call. -/
theorem Wake.round_passes {w : Wake} {evs : List Event} (h : w.events = some evs) (exits : Bool) :
    (Turn.round ⟨exits, some w⟩).passes = w.passes 0 evs := by
  show (w.call.map callPasses).getD [] = _
  rw [Wake.call, h]
  cases evs with
  | nil => rfl
  | cons ev evs =>
    show _ :: _ = _ :: w.passes 1 evs
    rw [w.passes_later]
    rfl

section client

variable {cfg : Config} {f : Forked} {c₁ c₂ : ℤ}

/-- From a state of a run, no pass faults. -/
theorem runs_of_reached (hbad : cfg.maxBadness ≠ 0) {s : Session} (hs : s.Reached cfg c₁ c₂) :
    Runs cfg s.state := by
  intro ps
  obtain ⟨past, outs, hrun⟩ := hs
  obtain ⟨s', outs', hboth⟩ : ∃ s' outs',
    run (midiEventPass cfg) (initial c₁ c₂) (past ++ ps) = .ok (s', outs') := run_ok hbad _
  rw [run_append_of_ok _ _ hrun] at hboth
  rcases hps : run (midiEventPass cfg) s.state ps with e | ⟨s'', os⟩
  · rw [hps] at hboth
    cases hboth
  · exact ⟨s'', os, rfl⟩

/-- **The body of the loop**, if its read succeeds. -/
theorem poll_of_reads (hbad : cfg.maxBadness ≠ 0) {s : Session} (hs : s.Reached cfg c₁ c₂)
    {seq : Sequencer} (hseq : seq.ibuflen = 0) {t : Turn} (ht : t.Reads) :
    ∃ s' seq' out, s.poll cfg t.round = .ok (s', out) ∧
      Client.poll cfg ⟨s, seq⟩ t = .ok (⟨s', seq'⟩, out) ∧ seq'.ibuflen = 0 := by
  obtain ⟨exits, wake⟩ := t
  cases wake with
  | none => exact ⟨s, seq, [], rfl, rfl, hseq⟩
  | some w =>
    obtain ⟨evs, hevs⟩ := Option.ne_none_iff_exists'.mp (ht w rfl)
    obtain ⟨s', seq', out, hrun, hwake, hempty⟩ := wake_ok (runs_of_reached hbad hs) hseq hevs
    refine ⟨⟨s.child, s'⟩, seq', out, ?_, ?_, hempty⟩
    · rw [poll_eq, Wake.round_passes hevs, hrun]
      rfl
    · show (midiEventWake cfg w s.state seq).map _ = _
      rw [hwake]
      rfl

/-- The body of the loop, if its read fails. -/
theorem poll_of_not_reads (hbad : cfg.maxBadness ≠ 0) {s : Session} (hs : s.Reached cfg c₁ c₂)
    {seq : Sequencer} (hseq : seq.ibuflen = 0) {t : Turn} (ht : ¬ t.Reads) :
    Client.poll cfg ⟨s, seq⟩ t = .error .null := by
  obtain ⟨exits, wake⟩ := t
  cases wake with
  | none => exact absurd nofun ht
  | some w =>
    have hnone : w.events = none := by
      by_contra hsome
      apply ht
      rintro w' ⟨⟩
      exact hsome
    show (midiEventWake cfg w s.state seq).map _ = _
    rw [wake_null (runs_of_reached hbad hs) hseq hnone]
    rfl

/-- `main` has returned. -/
def Returned (f : Forked) (c₁ c₂ : ℤ) (rs : List Round) : Prop :=
  ∃ past r, past ++ [r] <+: rs ∧ Leaves f c₁ c₂ past r

/-- Every read succeeds that is made before `main` returns. -/
def Survives (f : Forked) (c₁ c₂ : ℤ) (ts : List Turn) : Prop :=
  Always (fun past t => Returned f c₁ c₂ ((past ++ [t]).map Turn.round) ∨ t.Reads) ts

/-- The client does what the session does, and has taken all events from its
buffer. -/
structure ClientOf (l' : Loop Client) (l : Loop Session) : Prop where
  left : l'.left = l.left
  session : l'.state.session = l.state
  drained : l'.state.seq.ibuflen = 0

/-- Inside the loop, the session is in a state of a run. -/
theorem reached_of_inside {rs : List Round} {l : Loop Session}
    {outs : List (Option (List Output))}
    (h : run (session cfg f) (Session.start f c₁ c₂) rs = .ok (l, outs)) (hleft : l.left = false) :
    l.state.Reached cfg c₁ c₂ := by
  obtain ⟨before, s, os, turns⟩ := run_loop h
  obtain ⟨rfl, rfl⟩ := turns.inside hleft
  exact ⟨_, _, (run_turns turns.ran).1⟩

/-- **One turn** of both loops. -/
theorem client_turn (hbad : cfg.maxBadness ≠ 0) {l : Loop Session} {l' : Loop Client}
    (hof : ClientOf l' l) (hreached : l.left = false → l.state.Reached cfg c₁ c₂) (t : Turn) :
    ((l.left = true ∨ ¬ Goes (Session.waits f) l.state t.round) ∨ t.Reads → ∃ l₂ l₂' o,
      session cfg f l t.round = .ok (l₂, o) ∧ client cfg f l' t = .ok (l₂', o) ∧
        ClientOf l₂' l₂) ∧
    (¬ ((l.left = true ∨ ¬ Goes (Session.waits f) l.state t.round) ∨ t.Reads) →
      client cfg f l' t = .error .null) := by
  obtain ⟨s, left⟩ := l
  obtain ⟨⟨s', seq⟩, left'⟩ := l'
  obtain ⟨hleft, hsession, hdrained⟩ := hof
  obtain rfl : left' = left := hleft
  obtain rfl : s' = s := hsession
  cases left' with
  | true =>
    exact ⟨fun _ => ⟨_, _, none, rfl, rfl, rfl, rfl, hdrained⟩,
      fun h => absurd (Or.inl (Or.inl rfl)) h⟩
  | false =>
    rcases hgo : (s'.waits f t.round).2 with - | -
    · have hgo' : (Client.waits f ⟨s', seq⟩ t).2 = false := hgo
      have hstop : ¬ Goes (Session.waits f) s' t.round := Bool.eq_false_iff.mp hgo
      exact ⟨fun _ => ⟨_, _, none, loop_of_stop hgo, loop_of_stop hgo', rfl, rfl, hdrained⟩,
        fun h => absurd (Or.inl (Or.inr hstop)) h⟩
    · have hgo' : (Client.waits f ⟨s', seq⟩ t).2 = true := hgo
      have hwaited : (s'.waits f t.round).1.Reached cfg c₁ c₂ := hreached rfl
      rw [session, client, loop_of_go hgo, loop_of_go hgo']
      constructor
      · rintro ((h | h) | hreads)
        · cases h
        · exact absurd hgo h
        · obtain ⟨s₂, seq₂, out, hpoll, hpoll', hempty⟩ :=
            poll_of_reads hbad hwaited hdrained hreads
          refine ⟨⟨s₂, false⟩, ⟨⟨s₂, seq₂⟩, false⟩, some out, ?_, ?_, rfl, rfl, hempty⟩
          · show (Session.poll cfg (s'.waits f t.round).1 t.round).map _ = _
            rw [hpoll]
            rfl
          · show (Client.poll cfg ⟨(s'.waits f t.round).1, seq⟩ t).map _ = _
            rw [hpoll']
            rfl
      · intro hnot
        have hreads : ¬ t.Reads := fun h => hnot (Or.inr h)
        show (Client.poll cfg ⟨(s'.waits f t.round).1, seq⟩ t).map _ = _
        rw [poll_of_not_reads hbad hwaited hdrained hreads]
        rfl

/-- The test of a turn tells whether `main` has returned. -/
theorem returned_snoc_iff (hbad : cfg.maxBadness ≠ 0) {rs : List Round} {l : Loop Session}
    {outs : List (Option (List Output))}
    (h : run (session cfg f) (Session.start f c₁ c₂) rs = .ok (l, outs)) (r : Round) :
    Returned f c₁ c₂ (rs ++ [r]) ↔ l.left = true ∨ ¬ Goes (Session.waits f) l.state r := by
  obtain ⟨l₂, outs₂, h₂⟩ := session_ok hbad f c₁ c₂ (rs ++ [r])
  rw [Returned, ← left_iff_leaves hbad h₂]
  obtain ⟨l₁, os, o, h₁, hstep, -⟩ := run_snoc_ok.mp h₂
  rw [h] at h₁
  cases h₁
  exact loop_left_iff hstep

/-- While the reads succeed, the client does what the session does. -/
theorem client_runs (hbad : cfg.maxBadness ≠ 0) {ts : List Turn} (h : Survives f c₁ c₂ ts) :
    ∃ l l' outs, run (session cfg f) (Session.start f c₁ c₂) (ts.map Turn.round) = .ok (l, outs) ∧
      run (client cfg f) (Client.start f c₁ c₂) ts = .ok (l', outs) ∧ ClientOf l' l := by
  induction ts using List.reverseRecOn with
  | nil => exact ⟨_, _, _, rfl, rfl, rfl, rfl, rfl⟩
  | append_singleton ts t ih =>
    obtain ⟨hts, ht⟩ := always_snoc.mp h
    obtain ⟨l, l', outs, hrun, hrun', hof⟩ := ih hts
    rw [List.map_append, List.map_singleton, returned_snoc_iff hbad hrun] at ht
    obtain ⟨l₂, l₂', o, hstep, hstep', hof'⟩ :=
      (client_turn hbad hof (reached_of_inside hrun) t).1 ht
    refine ⟨l₂, l₂', outs ++ [o], ?_, run_snoc_ok.mpr ⟨l', outs, o, hrun', hstep', rfl⟩, hof'⟩
    rw [List.map_append]
    exact run_snoc_ok.mpr ⟨l, outs, o, hrun, hstep, rfl⟩

/-- The first read that fails ends the client. -/
theorem client_crashes (hbad : cfg.maxBadness ≠ 0) {ts : List Turn}
    (h : ¬ Survives f c₁ c₂ ts) :
    run (client cfg f) (Client.start f c₁ c₂) ts = .error .null := by
  induction ts using List.reverseRecOn with
  | nil => exact absurd (always_nil _) h
  | append_singleton ts t ih =>
    by_cases hts : Survives f c₁ c₂ ts
    · obtain ⟨l, l', outs, hrun, hrun', hof⟩ := client_runs hbad hts
      have hturn : client cfg f l' t = .error .null := by
        refine (client_turn hbad hof (reached_of_inside hrun) t).2 fun ht => h ?_
        rw [← returned_snoc_iff hbad hrun] at ht
        refine always_snoc.mpr ⟨hts, ?_⟩
        rw [List.map_append]
        exact ht
      rw [run_append_of_ok _ _ hrun', run_cons_of_error [] hturn]
      rfl
    · exact run_append_of_error _ _ (ih hts)

/-- **The program on the buffer is the session** as long as the reads succeed:
it shows the same, returns when the session returns, and leaves no event in
the buffer, where `poll` does not see it.  At the first read that fails
before `main` returns, `midi_event` uses `NULL`. -/
theorem client_runs_or_crashes (cfg : Config) (hbad : cfg.maxBadness ≠ 0) (f : Forked) (c₁ c₂ : ℤ)
    (ts : List Turn) :
    (Survives f c₁ c₂ ts → ∃ l l' outs,
      run (session cfg f) (Session.start f c₁ c₂) (ts.map Turn.round) = .ok (l, outs) ∧
        run (client cfg f) (Client.start f c₁ c₂) ts = .ok (l', outs) ∧ ClientOf l' l) ∧
    (¬ Survives f c₁ c₂ ts → run (client cfg f) (Client.start f c₁ c₂) ts = .error .null) :=
  ⟨client_runs hbad, client_crashes hbad⟩

/-- A note, and then an overrun. -/
def overrun : List Turn :=
  [⟨false, some ⟨fun k => k, fun _ => .ok ⟨[⟨⟨0, .noteon, 0, 60, 64, 0⟩, false, 0⟩], by simp,
      by decide⟩⟩⟩,
    ⟨false, some ⟨fun k => 5 + k, fun _ => .error ⟨-28, by decide⟩⟩⟩]

theorem overrun_crashes :
    run (client ⟨100, 10, 10, 5⟩ ⟨7, by decide⟩) (Client.start ⟨7, by decide⟩ 0 0) overrun =
      .error .null := by
  refine (client_runs_or_crashes ⟨100, 10, 10, 5⟩ (by decide) ⟨7, by decide⟩ 0 0 overrun).2 ?_
  intro hsurvives
  rcases hsurvives (overrun.take 1) _ List.prefix_rfl with ⟨past, r, hp, hleave⟩ | hreads
  · -- the child runs
    obtain ⟨hpid | ⟨t, ht, hexits⟩, -⟩ := hleave
    · exact absurd hpid (by decide)
    · have hmem : t ∈ overrun.map Turn.round := hp.subset ht
      obtain ⟨u, hu, rfl⟩ := List.mem_map.mp hmem
      have hrunning : ∀ u ∈ overrun, u.exits = false := by decide
      have hexits : u.exits = true := hexits
      rw [hrunning u hu] at hexits
      cases hexits
  · exact hreads _ rfl rfl

/-! ### From the sequencer to the tables -/

/-- A read that delivers the given events; whatever reads would deliver in
the later rounds of the call. -/
structure Batch where
  clock : ℕ → ℤ
  packets : List Packet
  later : ℕ → Read
  nonempty : packets ≠ []
  fits : (encode packets).length ≤ ibufSize

/-- A read of events delivers their cells. -/
def Batch.delivery (b : Batch) : Delivery where
  cells := encode b.packets
  nonempty h := by
    obtain ⟨p, ps, hps⟩ := List.exists_cons_of_ne_nil b.nonempty
    rw [hps] at h
    cases h
  fits := b.fits

/-- The call of `midi_event` that the events wake. -/
def Batch.wake (b : Batch) : Wake where
  clock := b.clock
  read k := if k = 0 then .ok b.delivery else b.later k

/-- The passes of a read: one for each of its events. -/
def Batch.passes (b : Batch) : List Pass := b.wake.passes 0 (b.packets.map fun p => p.head.ev)

theorem Batch.wake_events (b : Batch) :
    b.wake.events = some (b.packets.map fun p => p.head.ev) :=
  decode_encode b.packets

/-- A turn of the loop with a read of events. -/
def batchTurn (b : Bool × Option Batch) : Turn := ⟨b.1, b.2.map Batch.wake⟩

/-- The passes of a turn. -/
def batchPasses (b : Bool × Option Batch) : List Pass := (b.2.map Batch.passes).getD []

theorem batchTurn_reads (b : Bool × Option Batch) : (batchTurn b).Reads := by
  obtain ⟨exits, batch⟩ := b
  cases batch with
  | none => exact nofun
  | some batch =>
    rintro w ⟨⟩
    rw [batch.wake_events]
    exact Option.some_ne_none _

theorem batchTurn_passes (b : Bool × Option Batch) :
    (batchTurn b).round.passes = batchPasses b := by
  obtain ⟨exits, batch⟩ := b
  cases batch with
  | none => rfl
  | some batch => exact Wake.round_passes batch.wake_events exits

/-- **Every event is handled once.**  The tables are those of one pass for
each event that the reads delivered before `main` returned, in their order;
the data of events are not taken for events. -/
theorem packets_handled (cfg : Config) (hbad : cfg.maxBadness ≠ 0) (f : Forked) (c₁ c₂ : ℤ)
    (bs : List (Bool × Option Batch)) :
    ∃ l outs before, run (client cfg f) (Client.start f c₁ c₂) (bs.map batchTurn) = .ok (l, outs) ∧
      before <+: bs ∧ (l.left = false → before = bs) ∧
        run (midiEventPass cfg) (initial c₁ c₂) (before.flatMap batchPasses) =
          .ok (l.state.session.state, outs.reduceOption.flatten) := by
  have hsurvives : Survives f c₁ c₂ (bs.map batchTurn) := by
    intro past t ht
    have hmem : t ∈ bs.map batchTurn := ht.subset (by simp)
    obtain ⟨b, -, rfl⟩ := List.mem_map.mp hmem
    exact Or.inr (batchTurn_reads b)
  obtain ⟨l, l', outs, hrun, hrun', hof⟩ := client_runs hbad hsurvives
  obtain ⟨rounds, s, os, turns⟩ := run_loop hrun
  have hpre : rounds <+: (bs.map batchTurn).map Turn.round := by
    rcases hleft : l.left with - | -
    · rw [(turns.inside hleft).1]
    · obtain ⟨r, hr, -⟩ := turns.outside hleft
      exact (List.prefix_append _ _).trans hr
  have hstate : l.state.state = s.state := by
    rcases hleft : l.left with - | -
    · rw [(turns.inside hleft).2]
    · obtain ⟨r, -, -, hr⟩ := turns.outside hleft
      rw [hr]
      rfl
  -- the rounds before the return are those of the first reads
  have hrounds : rounds = ((bs.take rounds.length).map batchTurn).map Turn.round := by
    rw [List.map_take, List.map_take]
    exact List.prefix_iff_eq_take.mp hpre
  have hpasses : passes rounds = (bs.take rounds.length).flatMap batchPasses := by
    rw [hrounds, passes, List.flatMap_map, List.flatMap_map, ← hrounds]
    exact congrArg (List.flatMap · _) (funext batchTurn_passes)
  refine ⟨l', outs, bs.take rounds.length, hrun', List.take_prefix _ _, fun hleft => ?_, ?_⟩
  · have hlen := congrArg List.length (turns.inside (hof.left ▸ hleft)).1
    rw [List.length_map, List.length_map] at hlen
    rw [hlen]
    exact List.take_length
  · rw [← hpasses, hof.session, hstate, turns.shown]
    exact (run_turns turns.ran).1

end client

/-- A system exclusive message whose data look like notes, and a note. -/
def exclusive : Batch where
  clock k := k
  packets := [⟨⟨⟨1, .other, 30, 0, 0, 0⟩, true, 30⟩,
      [⟨⟨1, .noteon, 0, 61, 64, 0⟩, false, 0⟩, ⟨⟨1, .noteon, 0, 62, 64, 0⟩, false, 0⟩], rfl⟩,
    ⟨⟨⟨1, .noteon, 0, 60, 64, 0⟩, false, 0⟩, [], rfl⟩]
  later _ := .error ⟨-11, by decide⟩
  nonempty := by simp
  fits := by decide

theorem exclusive_handled : ∃ l outs before,
    run (client ⟨100, 10, 10, 5⟩ ⟨7, by decide⟩) (Client.start ⟨7, by decide⟩ 0 0)
      ([(false, some exclusive)].map batchTurn) = .ok (l, outs) ∧
      before <+: [(false, some exclusive)] ∧
        (l.left = false → before = [(false, some exclusive)]) ∧
          run (midiEventPass ⟨100, 10, 10, 5⟩) (initial 0 0) (before.flatMap batchPasses) =
            .ok (l.state.session.state, outs.reduceOption.flatten) :=
  packets_handled ⟨100, 10, 10, 5⟩ (by decide) ⟨7, by decide⟩ 0 0 [(false, some exclusive)]

/-- The data are no notes. -/
example : exclusive.passes =
    [⟨true, 0, ⟨1, .other, 30, 0, 0, 0⟩⟩, ⟨false, 1, ⟨1, .noteon, 0, 60, 64, 0⟩⟩] := rfl

end MidiTraining
