import PveCompose.Host
import PveCompose.Lib.Utf8

/-!
# A captured command (`cmd.rs`)

`run_status_within` waits for a command in ticks, while two threads read its pipes up to their caps;
the three share one flag.  `Capture.Step` is any of them, or the command and the clock, going one step
on; what is proved holds after any number of steps in any order.

* `Sound` / `sound_step` — **one invariant, one step**: what a reader holds is what was taken from
  its pipe, a reader that has stopped saw the end or raised the flag, and the flag is raised only
  for a pipe that was written past its cap;
* `returned_whole` — **PROVED**: what is returned is everything that was written;
* `captured_whole` — **PROVED**: what comes back is whole, or it is an error.
-/

namespace PveCompose

open Utf8

/-! ### The parties -/

/-- What a command may exit with: no code means a signal. -/
abbrev Exit := Option ℤ

inductive Side where
  | out
  | err
deriving DecidableEq

def STDERR_CAP : ℕ := 64 * 1024

def Side.cap : Side → ℕ
  | .out => MAX_OUTPUT
  | .err => STDERR_CAP

/-- A pipe: what was read from it, what is still in it, and whether all who write have closed it. -/
structure Pipe where
  taken : Bytes
  rest : Bytes
  closed : Bool

def Pipe.written (p : Pipe) : Bytes := p.taken ++ p.rest

/-- Where a thread of `capped` stands, and its `buf`. -/
inductive Reader where
  | reading (buf : Bytes)
  /-- A chunk was one too many; the flag is not stored yet. -/
  | passing (buf : Bytes)
  /-- The loop is left; the thread is not finished yet. -/
  | ending (buf : Bytes)
  | finished (buf : Bytes)

/-- What `capped` does with a chunk. -/
def Reader.take (cap : ℕ) (buf chunk : Bytes) : Reader :=
  if cap < buf.length + chunk.length then .passing buf else .reading (buf ++ chunk)

/-- Why no output is returned. -/
inductive Refusal where
  | tooMuchKilled
  | noAnswer
  | tooMuch
  | wait (e : Error)

/-- The error it is; `what` is the program and its first argument. -/
def Refusal.error (what : Text) (seconds : ℕ) : Refusal → Error
  | .tooMuchKilled => ⟨[what ++ ": more output than allowed, killed"]⟩
  | .noAnswer => ⟨[what ++ ": no answer after " ++ dec seconds ++ "s, killed"]⟩
  | .tooMuch => ⟨[what ++ ": more output than allowed"]⟩
  | .wait e => e

/-- What was captured, as bytes. -/
structure Captured where
  status : ℤ
  bytes : Side → Bytes

/-- The `Output` that is made of it. -/
def Captured.output (c : Captured) : Output where
  status := c.status
  stdout := lossy (c.bytes .out)
  stderr := trim (lossy (c.bytes .err))

/-- Where the wait loop stands. -/
inductive Waiting where
  | top
  | trying
  | outFinished
  | errFinished
  | clock
  | sleeping
  | killing (r : Refusal)
  | joining
  | last (stdout stderr : Bytes)
  | returned (r : Except Refusal Captured)

structure Capture where
  pipe : Side → Pipe
  reader : Side → Reader
  isOver : Bool
  /-- The command has exited. -/
  exited : Option Exit
  /-- The deadline is past. -/
  late : Bool
  /-- `status`, what `try_wait` has said. -/
  status : Option Exit
  main : Waiting

/-- What `run_status_within` has returned, if it has. -/
def Capture.answer (program : Text) (args : List Text) (seconds : ℕ) (m : Capture) :
    Option (Result Output) :=
  match m.main with
  | .returned (.ok c) => some (.ok c.output)
  | .returned (.error r) => some (.error (r.error (program ++ " " ++ args.headD "") seconds))
  | _ => none

def Reader.isFinished : Reader → Bool
  | .finished _ => true
  | _ => false

/-! ### The wait loop -/

/-- One step of the wait loop; none where it has to wait, or has returned. -/
def waitStep (m : Capture) : Option Capture :=
  match m.main with
  | .top => some { m with main := if m.isOver then .killing .tooMuchKilled else .trying }
  | .trying =>
    let status := if m.status.isNone then m.exited else m.status
    some { m with status, main := if status.isSome then .outFinished else .clock }
  | .outFinished =>
    some { m with main := if (m.reader .out).isFinished then .errFinished else .clock }
  | .errFinished => some { m with main := if (m.reader .err).isFinished then .joining else .clock }
  | .clock => some { m with main := if m.late then .killing .noAnswer else .sleeping }
  | .sleeping => some { m with main := .top }
  | .killing r =>
    -- the group is killed and the command waited for
    some { m with exited := some (m.exited.getD none), main := .returned (.error r) }
  | .joining =>
    match m.reader .out, m.reader .err with
    | .finished stdout, .finished stderr => some { m with main := .last stdout stderr }
    | _, _ => none
  | .last stdout stderr =>
    some { m with main := .returned (if m.isOver then .error .tooMuch else .ok
      { status := m.status.join.getD (-1)
        bytes := fun | .out => stdout | .err => stderr }) }
  | .returned _ => none

/-! ### Steps -/

/-- The pipe of a side and the thread that reads it. -/
def Capture.set (m : Capture) (side : Side) (p : Pipe) (r : Reader) : Capture :=
  { m with pipe := Function.update m.pipe side p, reader := Function.update m.reader side r }

/-- More is written to a pipe. -/
def Pipe.write (p : Pipe) (bs : Bytes) : Pipe := { p with rest := p.rest ++ bs }

/-- What is in a pipe begins with `chunk`, and a read takes it. -/
def Pipe.read (p : Pipe) (chunk : Bytes) : Pipe :=
  { p with taken := p.taken ++ chunk, rest := p.rest.drop chunk.length }

variable (fails : Prop)

/-- One step of one party.  `fails` says whether reads may fail. -/
inductive Capture.Step : Capture → Capture → Prop where
  /-- The command, or what it left behind, writes. -/
  | write (m : Capture) (side : Side) (bs : Bytes) :
      (m.pipe side).closed = false → Step m (m.set side ((m.pipe side).write bs) (m.reader side))
  | close (m : Capture) (side : Side) :
      Step m (m.set side { m.pipe side with closed := true } (m.reader side))
  | exit (m : Capture) (e : Exit) : m.exited = none → Step m { m with exited := some e }
  | deadline (m : Capture) : Step m { m with late := true }
  /-- A read gives some of what is there. -/
  | read (m : Capture) (side : Side) (buf chunk : Bytes) :
      m.reader side = .reading buf → chunk <+: (m.pipe side).rest → 1 ≤ chunk.length →
      chunk.length ≤ 8192 →
      Step m (m.set side ((m.pipe side).read chunk) (Reader.take side.cap buf chunk))
  /-- A read gives nothing: the end of the pipe. -/
  | eof (m : Capture) (side : Side) (buf : Bytes) :
      m.reader side = .reading buf → (m.pipe side).closed = true → (m.pipe side).rest = [] →
      Step m (m.set side (m.pipe side) (.ending buf))
  | fail (m : Capture) (side : Side) (buf : Bytes) :
      fails → m.reader side = .reading buf → Step m (m.set side (m.pipe side) (.ending buf))
  /-- `over.store(true)`, and the loop is left. -/
  | raise (m : Capture) (side : Side) (buf : Bytes) :
      m.reader side = .passing buf →
      Step m { m.set side (m.pipe side) (.ending buf) with isOver := true }
  | finish (m : Capture) (side : Side) (buf : Bytes) :
      m.reader side = .ending buf → Step m (m.set side (m.pipe side) (.finished buf))
  | wait (m m' : Capture) : waitStep m = some m' → Step m m'
  /-- `try_wait` fails, and its error is passed on. -/
  | waitError (m : Capture) (e : Error) :
      m.main = .trying → m.status = none → Step m { m with main := .returned (.error (.wait e)) }

/-- A command that has just been started. -/
def Capture.started : Capture where
  pipe _ := ⟨[], [], false⟩
  reader _ := .reading []
  isOver := false
  exited := none
  late := false
  status := none
  main := .top

/-- Any number of steps. -/
abbrev Capture.Runs : Capture → Capture → Prop := Relation.ReflTransGen (Capture.Step fails)

/-! ### What the parties say -/

/-- What the place of a reader says of its pipe: nothing is lost before the cap, and a loop that was
left saw the end, or raised the flag. -/
def Reader.Sound (cap : ℕ) (p : Pipe) (isOver : Bool) : Reader → Prop
  | .reading buf => buf = p.taken ∧ buf.length ≤ cap
  | .passing _ => cap < p.taken.length
  | .ending buf | .finished buf => (isOver = true ∧ cap < p.taken.length) ∨
      ((p.closed = true ∧ p.rest = []) ∧ buf = p.taken ∧ buf.length ≤ cap)

/-- More was written to some pipe than may be read. -/
def Capture.Exceeds (m : Capture) : Prop := ∃ side : Side, side.cap < (m.pipe side).taken.length

/-- A refusal is no accident. -/
def Refusal.Sound (m : Capture) : Refusal → Prop
  | .tooMuchKilled | .tooMuch => m.Exceeds
  | .noAnswer => m.late = true
  | .wait _ => True

/-- What the place of the wait loop says. -/
def Waiting.Sound (m : Capture) : Waiting → Prop
  | .outFinished => m.status.isSome = true
  | .errFinished => m.status.isSome = true ∧ ∃ a, m.reader .out = .finished a
  | .joining => m.status.isSome = true ∧ (∃ a, m.reader .out = .finished a) ∧
      ∃ b, m.reader .err = .finished b
  | .last a b => m.status.isSome = true ∧ m.reader .out = .finished a ∧ m.reader .err = .finished b
  | .killing r | .returned (.error r) => r.Sound m
  | .returned (.ok c) => (∃ e : Exit, m.exited = some e ∧ c.status = e.getD (-1)) ∧
      ∀ side, ((m.pipe side).closed = true ∧ (m.pipe side).rest = []) ∧
        c.bytes side = (m.pipe side).taken ∧ (m.pipe side).taken.length ≤ side.cap
  | .top | .trying | .clock | .sleeping => True

/-- The invariant. -/
structure Capture.Sound (m : Capture) : Prop where
  readers : ∀ side, (m.reader side).Sound side.cap (m.pipe side) m.isOver
  flag : m.isOver = true → m.Exceeds
  status : ∀ e, m.status = some e → m.exited = some e
  main : m.main.Sound m

/-- What no step takes back. -/
structure Capture.Keeps (m m' : Capture) : Prop where
  taken : ∀ side, (m.pipe side).taken.length ≤ (m'.pipe side).taken.length
  whole : ∀ side, (m.pipe side).closed = true ∧ (m.pipe side).rest = [] → m'.pipe side = m.pipe side
  finished : ∀ side buf, m.reader side = .finished buf → m'.reader side = .finished buf
  exited : ∀ e, m.exited = some e → m'.exited = some e
  late : m.late = true → m'.late = true

variable {m m' : Capture} {side : Side}

theorem started_sound : Capture.started.Sound where
  readers _ := ⟨rfl, Nat.zero_le _⟩
  flag h := absurd h Bool.false_ne_true
  status _ h := by cases h
  main := trivial

theorem Reader.Sound.raised {cap : ℕ} {p : Pipe} {isOver : Bool} {r : Reader}
    (h : r.Sound cap p isOver) : r.Sound cap p true := by
  cases r with
  | reading buf => exact h
  | passing buf => exact h
  | ending buf => exact h.imp_left fun h => ⟨rfl, h.2⟩
  | finished buf => exact h.imp_left fun h => ⟨rfl, h.2⟩

/-- A pipe that is written to, or closed. -/
theorem Reader.Sound.pipe {cap : ℕ} {p p' : Pipe} {isOver : Bool} {r : Reader}
    (h : r.Sound cap p isOver) (htaken : p'.taken = p.taken)
    (hwhole : p.closed = true ∧ p.rest = [] → p'.closed = true ∧ p'.rest = []) :
    r.Sound cap p' isOver := by
  cases r with
  | reading buf =>
    show buf = p'.taken ∧ _
    rw [htaken]
    exact h
  | passing buf =>
    show cap < p'.taken.length
    rw [htaken]
    exact h
  | ending buf =>
    show (_ ∧ cap < p'.taken.length) ∨ (_ ∧ buf = p'.taken ∧ _)
    rw [htaken]
    exact h.imp_right fun hend => ⟨hwhole hend.1, hend.2⟩
  | finished buf =>
    show (_ ∧ cap < p'.taken.length) ∨ (_ ∧ buf = p'.taken ∧ _)
    rw [htaken]
    exact h.imp_right fun hend => ⟨hwhole hend.1, hend.2⟩

theorem Capture.Keeps.exceeds (h : m.Keeps m') (hm : m.Exceeds) : m'.Exceeds := by
  obtain ⟨side, hside⟩ := hm
  exact ⟨side, hside.trans_le (h.taken side)⟩

theorem Capture.Keeps.refusal (h : m.Keeps m') {r : Refusal} (hr : r.Sound m) : r.Sound m' := by
  cases r with
  | tooMuchKilled => exact h.exceeds hr
  | noAnswer => exact h.late hr
  | tooMuch => exact h.exceeds hr
  | wait e => trivial

/-- What the wait loop's place says stays so. -/
theorem Capture.Keeps.main (h : m.Keeps m') (hstatus : m'.status = m.status) {w : Waiting}
    (hw : w.Sound m) : w.Sound m' := by
  cases w with
  | outFinished =>
    show m'.status.isSome = true
    rw [hstatus]
    exact hw
  | errFinished =>
    obtain ⟨hs, a, ha⟩ := hw
    exact ⟨hstatus ▸ hs, a, h.finished _ _ ha⟩
  | joining =>
    obtain ⟨hs, ⟨a, ha⟩, b, hb⟩ := hw
    exact ⟨hstatus ▸ hs, ⟨a, h.finished _ _ ha⟩, b, h.finished _ _ hb⟩
  | last a b =>
    obtain ⟨hs, ha, hb⟩ := hw
    exact ⟨hstatus ▸ hs, h.finished _ _ ha, h.finished _ _ hb⟩
  | killing r => exact h.refusal hw
  | returned r =>
    cases r with
    | error r => exact h.refusal hw
    | ok c =>
      obtain ⟨⟨e, he, hcode⟩, hsides⟩ := hw
      refine ⟨⟨e, h.exited e he, hcode⟩, fun side => ?_⟩
      rw [h.whole side (hsides side).1]
      exact hsides side
  | _ => trivial

/-! ### One side's step -/

theorem set_pipe_self (m : Capture) (side : Side) (p : Pipe) (r : Reader) :
    (m.set side p r).pipe side = p := Function.update_self _ _ _

theorem set_pipe_other {s : Side} (h : s ≠ side) (m : Capture) (p : Pipe) (r : Reader) :
    (m.set side p r).pipe s = m.pipe s := Function.update_of_ne h _ _

theorem set_reader_self (m : Capture) (side : Side) (p : Pipe) (r : Reader) :
    (m.set side p r).reader side = r := Function.update_self _ _ _

theorem set_reader_other {s : Side} (h : s ≠ side) (m : Capture) (p : Pipe) (r : Reader) :
    (m.set side p r).reader s = m.reader s := Function.update_of_ne h _ _

/-- A step of one side keeps what is not that side's, and of that side what it is asked for. -/
theorem keeps_set {p : Pipe} {r : Reader} (htaken : (m.pipe side).taken.length ≤ p.taken.length)
    (hwhole : (m.pipe side).closed = true ∧ (m.pipe side).rest = [] → p = m.pipe side)
    (hfinished : ∀ buf, m.reader side = .finished buf → r = .finished buf) :
    m.Keeps (m.set side p r) where
  taken s := by
    by_cases hs : s = side
    · subst hs
      rw [set_pipe_self]
      exact htaken
    · rw [set_pipe_other hs]
  whole s h := by
    by_cases hs : s = side
    · subst hs
      rw [set_pipe_self]
      exact hwhole h
    · rw [set_pipe_other hs]
  finished s buf h := by
    by_cases hs : s = side
    · subst hs
      rw [set_reader_self]
      exact hfinished buf h
    · rw [set_reader_other hs, h]
  exited _ h := h
  late h := h

/-- The invariant after a step of one side. -/
theorem Capture.Sound.set (h : m.Sound) {p : Pipe} {r : Reader} (hkeeps : m.Keeps (m.set side p r))
    (hr : r.Sound side.cap p m.isOver) : (m.set side p r).Sound where
  readers s := by
    by_cases hs : s = side
    · subst hs
      rw [set_pipe_self, set_reader_self]
      exact hr
    · rw [set_pipe_other hs, set_reader_other hs]
      exact h.readers s
  flag hover := hkeeps.exceeds (h.flag hover)
  status := h.status
  main := hkeeps.main rfl h.main

/-- A reader that is not finished has nothing that is kept. -/
theorem not_finished {r r' : Reader} (hreader : m.reader side = r) (h : r.isFinished = false) :
    ∀ buf, m.reader side = .finished buf → r' = .finished buf := by
  intro buf hbuf
  rw [← hreader, hbuf] at h
  cases h

theorem sound_write (h : m.Sound) {bs : Bytes} (hopen : (m.pipe side).closed = false) :
    m.Keeps (m.set side ((m.pipe side).write bs) (m.reader side)) ∧
      (m.set side ((m.pipe side).write bs) (m.reader side)).Sound := by
  have hclosed : ¬ (m.pipe side).closed = true := by
    rw [hopen]
    exact Bool.false_ne_true
  have hkeeps : m.Keeps (m.set side ((m.pipe side).write bs) (m.reader side)) :=
    keeps_set le_rfl (fun hwhole => absurd hwhole.1 hclosed) fun _ hbuf => hbuf
  exact ⟨hkeeps, h.set hkeeps ((h.readers side).pipe rfl fun hwhole => absurd hwhole.1 hclosed)⟩

theorem sound_close (h : m.Sound) :
    m.Keeps (m.set side { m.pipe side with closed := true } (m.reader side)) ∧
      (m.set side { m.pipe side with closed := true } (m.reader side)).Sound := by
  have hkeeps : m.Keeps (m.set side { m.pipe side with closed := true } (m.reader side)) := by
    refine keeps_set le_rfl (fun hwhole => ?_) fun _ hbuf => hbuf
    rw [← hwhole.1]
  exact ⟨hkeeps, h.set hkeeps ((h.readers side).pipe rfl fun hwhole => ⟨rfl, hwhole.2⟩)⟩

/-- **A chunk**: it is kept whole, or it is the one too many. -/
theorem sound_read (h : m.Sound) {buf chunk : Bytes} (hreader : m.reader side = .reading buf)
    (hchunk : chunk <+: (m.pipe side).rest) (hpos : 1 ≤ chunk.length) :
    m.Keeps (m.set side ((m.pipe side).read chunk) (Reader.take side.cap buf chunk)) ∧
      (m.set side ((m.pipe side).read chunk) (Reader.take side.cap buf chunk)).Sound := by
  have hr := h.readers side
  rw [hreader] at hr
  obtain ⟨hbuf, hcap⟩ := hr
  have hlength : ((m.pipe side).taken ++ chunk).length = buf.length + chunk.length := by
    rw [List.length_append, ← hbuf]
  have hkeeps : m.Keeps (m.set side ((m.pipe side).read chunk) (Reader.take side.cap buf chunk)) := by
    refine keeps_set ?_ (fun hwhole => ?_) (not_finished hreader rfl)
    · show (m.pipe side).taken.length ≤ ((m.pipe side).taken ++ chunk).length
      rw [List.length_append]
      exact Nat.le_add_right _ _
    · -- there is something in the pipe
      have hnil : chunk = [] := List.prefix_nil.mp (hwhole.2 ▸ hchunk)
      rw [hnil] at hpos
      exact absurd hpos (by decide)
  refine ⟨hkeeps, h.set hkeeps ?_⟩
  unfold Reader.take
  split_ifs with hover
  · show side.cap < ((m.pipe side).taken ++ chunk).length
    omega
  · refine ⟨?_, ?_⟩
    · rw [hbuf]
      rfl
    · rw [List.length_append]
      omega

theorem sound_eof (h : m.Sound) {buf : Bytes} (hreader : m.reader side = .reading buf)
    (hend : (m.pipe side).closed = true ∧ (m.pipe side).rest = []) :
    m.Keeps (m.set side (m.pipe side) (.ending buf)) ∧
      (m.set side (m.pipe side) (.ending buf)).Sound := by
  have hr := h.readers side
  rw [hreader] at hr
  have hkeeps : m.Keeps (m.set side (m.pipe side) (.ending buf)) :=
    keeps_set le_rfl (fun _ => rfl) (not_finished hreader rfl)
  exact ⟨hkeeps, h.set hkeeps (.inr ⟨hend, hr⟩)⟩

theorem sound_finish (h : m.Sound) {buf : Bytes} (hreader : m.reader side = .ending buf) :
    m.Keeps (m.set side (m.pipe side) (.finished buf)) ∧
      (m.set side (m.pipe side) (.finished buf)).Sound := by
  have hr := h.readers side
  rw [hreader] at hr
  have hkeeps : m.Keeps (m.set side (m.pipe side) (.finished buf)) :=
    keeps_set le_rfl (fun _ => rfl) (not_finished hreader rfl)
  exact ⟨hkeeps, h.set hkeeps hr⟩

/-- **The flag** is raised for the pipe that has passed its cap. -/
theorem sound_raise (h : m.Sound) {buf : Bytes} (hreader : m.reader side = .passing buf) :
    m.Keeps { m.set side (m.pipe side) (.ending buf) with isOver := true } ∧
      Capture.Sound { m.set side (m.pipe side) (.ending buf) with isOver := true } := by
  have hr : side.cap < (m.pipe side).taken.length := by
    have hr := h.readers side
    rw [hreader] at hr
    exact hr
  have hset : m.Keeps (m.set side (m.pipe side) (.ending buf)) :=
    keeps_set le_rfl (fun _ => rfl) (not_finished hreader rfl)
  have hkeeps : m.Keeps { m.set side (m.pipe side) (.ending buf) with isOver := true } :=
    ⟨hset.taken, hset.whole, hset.finished, hset.exited, hset.late⟩
  refine ⟨hkeeps, ⟨fun s => ?_, fun _ => hkeeps.exceeds ⟨side, hr⟩, h.status, hkeeps.main rfl h.main⟩⟩
  show ((m.set side (m.pipe side) (.ending buf)).reader s).Sound s.cap
    ((m.set side (m.pipe side) (.ending buf)).pipe s) true
  by_cases hs : s = side
  · subst hs
    rw [set_pipe_self, set_reader_self]
    exact .inl ⟨rfl, hr⟩
  · rw [set_pipe_other hs, set_reader_other hs]
    exact (h.readers s).raised

/-! ### The wait loop's step -/

/-- What the loop's own step leaves as it is. -/
structure Capture.Waits (m m' : Capture) : Prop where
  pipe : m'.pipe = m.pipe
  reader : m'.reader = m.reader
  isOver : m'.isOver = m.isOver
  late : m'.late = m.late
  exited : ∀ e, m.exited = some e → m'.exited = some e

theorem waits_main (m : Capture) (w : Waiting) : m.Waits { m with main := w } :=
  ⟨rfl, rfl, rfl, rfl, fun _ h => h⟩

theorem waits_of_wait (hstep : waitStep m = some m') : m.Waits m' := by
  unfold waitStep at hstep
  split at hstep
  case h_2 => cases hstep; exact ⟨rfl, rfl, rfl, rfl, fun _ h => h⟩
  case h_7 =>
    cases hstep
    refine ⟨rfl, rfl, rfl, rfl, fun e he => ?_⟩
    show some (m.exited.getD none) = some e
    rw [he]
    rfl
  case h_8 =>
    split at hstep
    · cases hstep; exact waits_main _ _
    · cases hstep
  case h_10 => cases hstep
  all_goals cases hstep; exact waits_main _ _

theorem Capture.Waits.keeps (h : m.Waits m') : m.Keeps m' where
  taken side := by rw [h.pipe]
  whole side _ := by rw [h.pipe]
  finished side buf hbuf := by rw [h.reader, hbuf]
  exited := h.exited
  late hlate := by rw [h.late, hlate]

/-- The invariant after the loop's own step, but for what its new places say. -/
theorem Capture.Sound.wait (h : m.Sound) (hw : m.Waits m')
    (hstatus : ∀ e, m'.status = some e → m'.exited = some e) (hmain : m'.main.Sound m') :
    m'.Sound where
  readers side := by
    rw [hw.reader, hw.pipe, hw.isOver]
    exact h.readers side
  flag hover := hw.keeps.exceeds (h.flag (hw.isOver ▸ hover))
  status := hstatus
  main := hmain

theorem isFinished_iff {r : Reader} : r.isFinished = true ↔ ∃ buf, r = .finished buf := by
  cases r with
  | finished buf => exact ⟨fun _ => ⟨buf, rfl⟩, fun _ => rfl⟩
  | _ => exact ⟨fun h => absurd h Bool.false_ne_true, fun ⟨_, h⟩ => by cases h⟩

/-- **A thread that finished without the flag has its whole pipe.** -/
theorem Capture.Sound.whole (h : m.Sound) (hover : m.isOver = false) {buf : Bytes}
    (hreader : m.reader side = .finished buf) :
    ((m.pipe side).closed = true ∧ (m.pipe side).rest = []) ∧
      buf = (m.pipe side).taken ∧ (m.pipe side).taken.length ≤ side.cap := by
  have hr := h.readers side
  rw [hreader, hover] at hr
  obtain ⟨hend, hbuf, hcap⟩ := hr.resolve_left fun hraised => Bool.false_ne_true hraised.1
  exact ⟨hend, hbuf, hbuf ▸ hcap⟩

theorem sound_wait (h : m.Sound) (hstep : waitStep m = some m') : m'.Sound := by
  have hw := waits_of_wait hstep
  have hplace := h.main
  unfold waitStep at hstep
  split at hstep
  case h_1 hmain =>
    cases hstep
    refine h.wait hw h.status ?_
    show Waiting.Sound _ (if m.isOver then .killing .tooMuchKilled else .trying)
    split_ifs with hover
    · exact hw.keeps.exceeds (h.flag hover)
    · trivial
  case h_2 hmain =>
    cases hstep
    have hstatus : ∀ e, (if m.status.isNone then m.exited else m.status) = some e →
        m.exited = some e := by
      intro e he
      split_ifs at he with hnone
      · exact he
      · exact h.status e he
    refine h.wait hw hstatus ?_
    generalize (if m.status.isNone then m.exited else m.status) = status
    show Waiting.Sound _ (if status.isSome then .outFinished else .clock)
    split_ifs with hsome
    · exact hsome
    · trivial
  case h_3 hmain =>
    rw [hmain] at hplace
    cases hstep
    refine h.wait hw h.status ?_
    show Waiting.Sound _ (if (m.reader .out).isFinished then .errFinished else .clock)
    split_ifs with hfinished
    · exact ⟨hplace, isFinished_iff.mp hfinished⟩
    · trivial
  case h_4 hmain =>
    rw [hmain] at hplace
    cases hstep
    refine h.wait hw h.status ?_
    show Waiting.Sound _ (if (m.reader .err).isFinished then .joining else .clock)
    split_ifs with hfinished
    · exact ⟨hplace.1, hplace.2, isFinished_iff.mp hfinished⟩
    · trivial
  case h_5 hmain =>
    cases hstep
    refine h.wait hw h.status ?_
    show Waiting.Sound _ (if m.late then .killing .noAnswer else .sleeping)
    split_ifs with hlate
    · exact hlate
    · trivial
  case h_6 hmain =>
    cases hstep
    exact h.wait hw h.status trivial
  case h_7 r hmain =>
    rw [hmain] at hplace
    cases hstep
    exact h.wait hw (fun e he => hw.exited e (h.status e he)) (hw.keeps.refusal hplace)
  case h_8 hmain =>
    rw [hmain] at hplace
    split at hstep
    case h_1 a b ha hb =>
      cases hstep
      exact h.wait hw h.status ⟨hplace.1, ha, hb⟩
    case h_2 => cases hstep
  case h_9 a b hmain =>
    rw [hmain] at hplace
    obtain ⟨hsome, ha, hb⟩ := hplace
    cases hstep
    refine h.wait hw h.status ?_
    show Waiting.Sound _ (.returned (if m.isOver then .error .tooMuch else .ok _))
    split_ifs with hover
    · exact hw.keeps.exceeds (h.flag hover)
    · have hover : m.isOver = false := Bool.eq_false_iff.mpr hover
      refine ⟨?_, fun side => ?_⟩
      · obtain ⟨e, he⟩ := Option.isSome_iff_exists.mp hsome
        refine ⟨e, h.status e he, ?_⟩
        show m.status.join.getD (-1) = e.getD (-1)
        rw [he]
        rfl
      · cases side with
        | out =>
          have hwhole := h.whole hover ha
          exact ⟨hwhole.1, hwhole.2⟩
        | err =>
          have hwhole := h.whole hover hb
          exact ⟨hwhole.1, hwhole.2⟩
  case h_10 => cases hstep

/-! ### Any number of steps -/

/-- **One step (proved)**: nothing is taken back, and the invariant stays. -/
theorem sound_step (h : m.Sound) (hstep : Capture.Step False m m') : m.Keeps m' ∧ m'.Sound := by
  cases hstep with
  | write side bs hopen => exact sound_write h hopen
  | close side => exact sound_close h
  | exit e hrunning =>
    have hkeeps : m.Keeps { m with exited := some e } :=
      ⟨fun _ => le_rfl, fun _ _ => rfl, fun _ _ hbuf => hbuf,
        fun e' he' => (by rw [hrunning] at he'; cases he'), fun hlate => hlate⟩
    exact ⟨hkeeps, h.readers, fun hover => h.flag hover,
      fun e' he' => hkeeps.exited e' (h.status e' he'), hkeeps.main rfl h.main⟩
  | deadline =>
    have hkeeps : m.Keeps { m with late := true } :=
      ⟨fun _ => le_rfl, fun _ _ => rfl, fun _ _ hbuf => hbuf, fun _ he => he, fun _ => rfl⟩
    exact ⟨hkeeps, h.readers, fun hover => h.flag hover, h.status, hkeeps.main rfl h.main⟩
  | read side buf chunk hreader hchunk hpos => exact sound_read h hreader hchunk hpos
  | eof side buf hreader hclosed hrest => exact sound_eof h hreader ⟨hclosed, hrest⟩
  | fail side buf hfails => exact hfails.elim
  | raise side buf hreader => exact sound_raise h hreader
  | finish side buf hreader => exact sound_finish h hreader
  | wait _ hwait => exact ⟨(waits_of_wait hwait).keeps, sound_wait h hwait⟩
  | waitError e =>
    have hkeeps := (waits_main m (.returned (.error (.wait e)))).keeps
    exact ⟨hkeeps, h.readers, fun hover => h.flag hover, h.status, trivial⟩

theorem sound_of_runs (hrun : Capture.Runs False .started m) : m.Sound := by
  induction hrun with
  | refl => exact started_sound
  | tail _ hstep ih => exact (sound_step ih hstep).2

/-- **Returned is whole (proved).** -/
theorem returned_whole (hrun : Capture.Runs False .started m) {c : Captured}
    (hmain : m.main = .returned (.ok c)) :
    (∃ e : Exit, m.exited = some e ∧ c.status = e.getD (-1)) ∧
      ∀ side, ((m.pipe side).closed = true ∧ (m.pipe side).rest = []) ∧
        c.bytes side = (m.pipe side).written ∧ (c.bytes side).length ≤ side.cap := by
  have hplace := (sound_of_runs hrun).main
  rw [hmain] at hplace
  obtain ⟨hexit, hsides⟩ := hplace
  refine ⟨hexit, fun side => ?_⟩
  obtain ⟨hend, hbytes, hcap⟩ := hsides side
  have hwritten : (m.pipe side).written = (m.pipe side).taken := by
    show (m.pipe side).taken ++ (m.pipe side).rest = _
    rw [hend.2, List.append_nil]
  exact ⟨hend, hbytes.trans hwritten.symm, hbytes ▸ hcap⟩

/-- A pipe that was read past its cap was written past it. -/
theorem Capture.Exceeds.written (h : m.Exceeds) :
    ∃ side : Side, side.cap < (m.pipe side).written.length := by
  obtain ⟨side, hside⟩ := h
  refine ⟨side, hside.trans_le ?_⟩
  show _ ≤ ((m.pipe side).taken ++ (m.pipe side).rest).length
  rw [List.length_append]
  exact Nat.le_add_right _ _

/-! ### The deadline -/

/-- Every step is the wait loop's, or leaves it where it is. -/
theorem step_main {fails : Prop} (hstep : Capture.Step fails m m') :
    waitStep m = some m' ∨ m.main = .trying ∧ (∃ e, m'.main = .returned (.error (.wait e))) ∨
      m'.main = m.main := by
  cases hstep with
  | wait _ hwait => exact .inl hwait
  | waitError e htrying => exact .inr (.inl ⟨htrying, e, rfl⟩)
  | _ => exact .inr (.inr rfl)

/-- The deadline was found past, and the command not done. -/
def Capture.TimedOut (m : Capture) : Prop :=
  m.main = .clock ∧ m.late = true ∨ m.main = .killing .noAnswer ∨
    m.main = .returned (.error .noAnswer)

theorem timedOut_step (h : m.TimedOut) (hsound : m.Sound) (hstep : Capture.Step False m m') :
    m'.TimedOut := by
  have hlate : m.late = true → m'.late = true := (sound_step hsound hstep).1.late
  rcases step_main hstep with hwait | ⟨htrying, -⟩ | hsame
  · unfold waitStep at hwait
    rcases h with ⟨hmain, hpast⟩ | hmain | hmain <;> rw [hmain] at hwait
    · cases hwait
      refine .inr (.inl ?_)
      show (if m.late then Waiting.killing .noAnswer else .sleeping) = _
      rw [hpast]
      rfl
    · cases hwait
      exact .inr (.inr rfl)
    · cases hwait
  · rcases h with ⟨hmain, -⟩ | hmain | hmain <;> rw [hmain] at htrying <;> cases htrying
  · rcases h with ⟨hmain, hpast⟩ | hmain | hmain
    · exact .inl ⟨hsame.trans hmain, hlate hpast⟩
    · exact .inr (.inl (hsame.trans hmain))
    · exact .inr (.inr (hsame.trans hmain))

theorem timedOut_runs (h : m.TimedOut) (hsound : m.Sound) (hrun : Capture.Runs False m m') :
    m'.TimedOut := by
  have hboth : m'.TimedOut ∧ m'.Sound := by
    induction hrun with
    | refl => exact ⟨h, hsound⟩
    | tail _ hstep ih => exact ⟨timedOut_step ih.1 ih.2 hstep, (sound_step ih.2 hstep).2⟩
  exact hboth.1

/-- How many steps of the loop are left once the deadline is past. -/
def Waiting.left : Waiting → ℕ
  | .sleeping => 7
  | .top => 6
  | .trying => 5
  | .outFinished => 4
  | .errFinished => 3
  | .clock | .joining => 2
  | .killing _ | .last _ _ => 1
  | .returned _ => 0

/-- **Past the deadline** the loop never waits for another party, and is soon done. -/
theorem wait_decreases (h : m.Sound) (hlate : m.late = true)
    (hmain : ∀ r, m.main ≠ .returned r) :
    ∃ m', waitStep m = some m' ∧ m'.main.left < m.main.left := by
  have hplace := h.main
  unfold waitStep
  cases hm : m.main with
  | top =>
    refine ⟨_, rfl, ?_⟩
    show Waiting.left (if m.isOver then .killing .tooMuchKilled else .trying) < 6
    split_ifs <;> decide
  | trying =>
    refine ⟨_, rfl, ?_⟩
    generalize (if m.status.isNone then m.exited else m.status) = status
    show Waiting.left (if status.isSome then .outFinished else .clock) < 5
    split_ifs <;> decide
  | outFinished =>
    refine ⟨_, rfl, ?_⟩
    show Waiting.left (if (m.reader .out).isFinished then .errFinished else .clock) < 4
    split_ifs <;> decide
  | errFinished =>
    refine ⟨_, rfl, ?_⟩
    show Waiting.left (if (m.reader .err).isFinished then .joining else .clock) < 3
    split_ifs <;> decide
  | clock =>
    refine ⟨_, rfl, ?_⟩
    show Waiting.left (if m.late then .killing .noAnswer else .sleeping) < 2
    rw [hlate]
    decide
  | sleeping => exact ⟨_, rfl, Nat.lt_succ_self 6⟩
  | killing r => exact ⟨_, rfl, Nat.zero_lt_one⟩
  | joining =>
    -- both threads are finished: neither join waits
    rw [hm] at hplace
    obtain ⟨-, ⟨a, ha⟩, b, hb⟩ := hplace
    rw [ha, hb]
    exact ⟨_, rfl, Nat.lt_succ_self 1⟩
  | last a b => exact ⟨_, rfl, Nat.zero_lt_one⟩
  | returned r => exact absurd hm (hmain r)

/-! ### What is not refused -/

/-- No flag where neither pipe was written past its cap. -/
theorem not_over (h : m.Sound) (hcap : ∀ side, (m.pipe side).written.length ≤ side.cap) :
    m.isOver = false := by
  refine Bool.eq_false_iff.mpr fun hover => ?_
  obtain ⟨side, hside⟩ := (h.flag hover).written
  exact absurd (hcap side) (Nat.not_le.mpr hside)

/-- **A done command is returned**: the loop's own steps from a new tick are enough. -/
theorem returned_of_done (h : m.Sound) (hcap : ∀ side, (m.pipe side).written.length ≤ side.cap)
    (htop : m.main = .top) (hexit : m.exited.isSome = true)
    (hfinished : ∀ side, (m.reader side).isFinished = true) :
    ∃ m' c, Relation.ReflTransGen (fun a b => waitStep a = some b) m m' ∧
      m'.main = .returned (.ok c) := by
  have hover := not_over h hcap
  obtain ⟨a, ha⟩ := isFinished_iff.mp (hfinished .out)
  obtain ⟨b, hb⟩ := isFinished_iff.mp (hfinished .err)
  have hstatus : (if m.status.isNone then m.exited else m.status).isSome = true := by
    split_ifs with hnone
    · exact hexit
    · exact Option.isSome_iff_ne_none.mpr fun hnone' => hnone (by rw [hnone']; rfl)
  generalize hs : (if m.status.isNone then m.exited else m.status) = status at hstatus
  have htrying : waitStep m = some { m with main := .trying } := by
    unfold waitStep
    rw [htop, hover]
    rfl
  have hout : waitStep { m with main := .trying } = some { m with status, main := .outFinished } := by
    show some { m with
      status := if m.status.isNone then m.exited else m.status
      main := if (if m.status.isNone then m.exited else m.status).isSome then .outFinished
        else .clock } = _
    rw [hs, hstatus]
    rfl
  have herr : waitStep { m with status, main := .outFinished } =
      some { m with status, main := .errFinished } := by
    show some { m with
      status
      main := if (m.reader .out).isFinished then .errFinished else .clock } = _
    rw [hfinished]
    rfl
  have hjoining : waitStep { m with status, main := .errFinished } =
      some { m with status, main := .joining } := by
    show some { m with
      status
      main := if (m.reader .err).isFinished then .joining else .clock } = _
    rw [hfinished]
    rfl
  have hlast : waitStep { m with status, main := .joining } =
      some { m with status, main := .last a b } := by
    unfold waitStep
    rw [ha, hb]
  have hreturned : ∃ c, waitStep { m with status, main := .last a b } =
      some { m with status, main := .returned (.ok c) } := by
    unfold waitStep
    rw [hover]
    exact ⟨_, rfl⟩
  obtain ⟨c, hreturned⟩ := hreturned
  exact ⟨_, c, .tail (.tail (.tail (.tail (.tail (.single htrying) hout) herr) hjoining) hlast)
    hreturned, rfl⟩

section

variable {program : Text} {args : List Text} {seconds : ℕ}

theorem answer_ok {o : Output} (h : m.answer program args seconds = some (.ok o)) :
    ∃ c, m.main = .returned (.ok c) ∧ o = c.output := by
  unfold Capture.answer at h
  split at h
  case h_1 c hmain =>
    cases h
    exact ⟨c, hmain, rfl⟩
  case h_2 => cases h
  case h_3 => cases h

theorem answer_some {x : Result Output} (h : m.answer program args seconds = some x) :
    ∃ r, m.main = .returned r := by
  unfold Capture.answer at h
  split at h
  case h_1 c hmain => exact ⟨_, hmain⟩
  case h_2 r hmain => exact ⟨_, hmain⟩
  case h_3 => cases h

/-- **A captured command's output is whole or the call fails (proved).**

In every run: an output is made of all that was written, both pipes at their end and within their
caps, of a command that has exited; past a cap there is none; up to the caps only the deadline or
`try_wait` can refuse, and a done command is not refused; a tick past the deadline refuses; and past
the deadline the call ends. -/
theorem captured_whole (program : Text) (args : List Text) (seconds : ℕ)
    (hrun : Capture.Runs False .started m) :
    (∀ o, m.answer program args seconds = some (.ok o) → ∃ c : Captured, o = c.output ∧
      (∃ e : Exit, m.exited = some e ∧ c.status = e.getD (-1)) ∧
        ∀ side, ((m.pipe side).closed = true ∧ (m.pipe side).rest = []) ∧
          c.bytes side = (m.pipe side).written ∧ (c.bytes side).length ≤ side.cap) ∧
    ((∃ side : Side, side.cap < (m.pipe side).written.length) →
      ∀ o, m.answer program args seconds ≠ some (.ok o)) ∧
    ((∀ side : Side, (m.pipe side).written.length ≤ side.cap) →
      (∀ r, m.main = .returned (.error r) → m.late = true ∧ r = .noAnswer ∨ ∃ e, r = .wait e) ∧
        (m.main = .top → m.exited.isSome = true → (∀ side, (m.reader side).isFinished = true) →
          ∃ m' c, Relation.ReflTransGen (fun a b => waitStep a = some b) m m' ∧
            m'.main = .returned (.ok c))) ∧
    (m.main = .clock ∧ m.late = true → ∀ m' x, Capture.Runs False m m' →
      m'.answer program args seconds = some x →
      x = .error (Refusal.noAnswer.error (program ++ " " ++ args.headD "") seconds)) ∧
    (m.late = true → m.answer program args seconds = none →
      (∃ m', waitStep m = some m' ∧ m'.main.left < m.main.left) ∧
        ∀ m', Capture.Step False m m' → m'.main = m.main ∨ m'.main.left < m.main.left) := by
  have hsound := sound_of_runs hrun
  refine ⟨?_, ?_, fun hcap => ⟨?_, returned_of_done hsound hcap⟩, ?_, ?_⟩
  · intro o ho
    obtain ⟨c, hmain, rfl⟩ := answer_ok ho
    exact ⟨c, rfl, returned_whole hrun hmain⟩
  · rintro ⟨side, hside⟩ o ho
    obtain ⟨c, hmain, -⟩ := answer_ok ho
    obtain ⟨-, hbytes, hcap⟩ := (returned_whole hrun hmain).2 side
    rw [hbytes] at hcap
    exact absurd hside (Nat.not_lt.mpr hcap)
  · intro r hmain
    have hr := hsound.main
    rw [hmain] at hr
    have hexceeds : ¬ m.Exceeds := by
      intro h
      obtain ⟨side, hside⟩ := h.written
      exact absurd hside (Nat.not_lt.mpr (hcap side))
    cases r with
    | tooMuchKilled => exact absurd hr hexceeds
    | tooMuch => exact absurd hr hexceeds
    | noAnswer => exact .inl ⟨hr, rfl⟩
    | wait e => exact .inr ⟨e, rfl⟩
  · intro hpast m' x hrun' hx
    obtain ⟨r, hmain⟩ := answer_some hx
    rcases timedOut_runs (.inl hpast) hsound hrun' with ⟨hclock, -⟩ | hkilling | hreturned
    · rw [hmain] at hclock
      cases hclock
    · rw [hmain] at hkilling
      cases hkilling
    · unfold Capture.answer at hx
      rw [hreturned] at hx
      exact (Option.some.inj hx).symm
  · intro hlate hnone
    have hmain : ∀ r, m.main ≠ .returned r := by
      intro r hr
      unfold Capture.answer at hnone
      rw [hr] at hnone
      cases r <;> cases hnone
    obtain ⟨m₁, hwait, hleft⟩ := wait_decreases hsound hlate hmain
    refine ⟨⟨m₁, hwait, hleft⟩, fun m' hstep => ?_⟩
    rcases step_main hstep with hwait' | ⟨htrying, e, he⟩ | hsame
    · rw [hwait] at hwait'
      cases hwait'
      exact .inr hleft
    · rw [he, htrying]
      exact .inr (Nat.succ_pos 4)
    · exact .inl hsame

/-- A command that writes to both pipes, in pieces of which one ends inside a letter, while the loop
waits for it. -/
theorem chunks_run : ∃ m : Capture, Capture.Runs False .started m ∧ ∃ o : Output,
    m.answer program args seconds = some (.ok o) ∧ o = ⟨0, "Grün\n", "no"⟩ := by
  have h : Capture.Runs False .started _ := .single (.write _ .out [71, 114, 195] rfl)
  have h := h.tail (.read _ .out [] [71, 114] rfl ⟨[195], rfl⟩ (by decide) (by decide))
  have h := h.tail (.write _ .err [110] rfl)
  have h := h.tail (.read _ .out [71, 114] [195] rfl ⟨[], rfl⟩ (by decide) (by decide))
  -- a tick: not done
  have h := h.tail (.wait _ _ rfl)
  have h := h.tail (.wait _ _ rfl)
  have h := h.tail (.wait _ _ rfl)
  have h := h.tail (.write _ .out [188, 110, 10] rfl)
  have h := h.tail (.read _ .err [] [110] rfl ⟨[], rfl⟩ (by decide) (by decide))
  have h := h.tail (.wait _ _ rfl)
  have h := h.tail (.write _ .err [111, 10] rfl)
  have h := h.tail (.exit _ (some 0) rfl)
  have h := h.tail (.close _ .out)
  have h := h.tail (.read _ .err [110] [111, 10] rfl ⟨[], rfl⟩ (by decide) (by decide))
  have h := h.tail (.read _ .out [71, 114, 195] [188] rfl ⟨[110, 10], rfl⟩ (by decide) (by decide))
  have h := h.tail (.read _ .out [71, 114, 195, 188] [110, 10] rfl ⟨[], rfl⟩ (by decide) (by decide))
  have h := h.tail (.eof _ .out [71, 114, 195, 188, 110, 10] rfl rfl rfl)
  have h := h.tail (.close _ .err)
  have h := h.tail (.finish _ .out [71, 114, 195, 188, 110, 10] rfl)
  have h := h.tail (.eof _ .err [110, 111, 10] rfl rfl rfl)
  have h := h.tail (.finish _ .err [110, 111, 10] rfl)
  -- one tick: done, and both threads joined
  have h := h.tail (.wait _ _ rfl)
  have h := h.tail (.wait _ _ rfl)
  have h := h.tail (.wait _ _ rfl)
  have h := h.tail (.wait _ _ rfl)
  have h := h.tail (.wait _ _ rfl)
  have h := h.tail (.wait _ _ rfl)
  exact ⟨_, h, _, rfl, by decide +kernel⟩

theorem captured_whole_chunks : ∃ m : Capture, ∃ o : Output,
    m.answer "pct" ["exec", "105"] 60 = some (.ok o) ∧ o = ⟨0, "Grün\n", "no"⟩ ∧
      ∃ c : Captured, o = c.output ∧ ∀ side, c.bytes side = (m.pipe side).written := by
  obtain ⟨m, hrun, o, ho, htexts⟩ := chunks_run
  obtain ⟨c, hc, -, hsides⟩ := (captured_whole "pct" ["exec", "105"] 60 hrun).1 o ho
  exact ⟨m, o, ho, htexts, c, hc, fun side => (hsides side).2.1⟩

end

end PveCompose
