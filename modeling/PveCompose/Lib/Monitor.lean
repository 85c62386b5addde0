import PveCompose.Lib.Program

/-!
# Monitors: automata along the trace of a program

A monitor reads a trace an event at a time; an event it has no step for is a violation.  It is a
world like any other, so a program is held against it with the rules of `wp`.

* `Monitor.run` — the state after a trace, if there was no violation;
* `Monitor.accepted` — **PROVED**: a program whose every command the monitor allows, whatever the
  answer, has no violation on any run, and ends in a state of the postcondition;
* `Monitor.exists_run_of_infix` — what happens inside an accepted trace is accepted from some state;
* `run_of_events` — a trace whose every event a world allows is a run in that world.
-/

namespace Programs

/-- An automaton over events. -/
structure Monitor (S : Sig) (Q : Type) where
  step : Q → (c : S.Cmd) → S.Ans c → Option Q

variable {S : Sig} {Q α : Type}

namespace Monitor

variable (M : Monitor S Q)

/-- The state after a trace, if there was no violation. -/
def run : Q → List (Event S) → Option Q
  | q, [] => some q
  | q, e :: tr => (M.step q e.1 e.2).bind fun q' => run q' tr

/-- The outside that answers as the monitor allows. -/
def world : World S Q := ⟨fun q c r q' => M.step q c r = some q'⟩

/-- Whatever it is answered with, the command is no violation. -/
def Allows (q : Q) (c : S.Cmd) : Prop := ∀ r, (M.step q c r).isSome

variable {M} {q q' : Q} {tr tr' : List (Event S)} {p : Prog S α} {a : α}

@[simp] theorem run_nil : M.run q [] = some q := rfl

theorem run_cons {e : Event S} :
    M.run q (e :: tr) = (M.step q e.1 e.2).bind fun q' => M.run q' tr := rfl

theorem run_append : M.run q (tr ++ tr') = (M.run q tr).bind fun q' => M.run q' tr' := by
  induction tr generalizing q with
  | nil => rfl
  | cons e tr ih =>
    rw [List.cons_append, run_cons, run_cons, Option.bind_assoc]
    exact Option.bind_congr fun q' _ => ih

/-- **An accepted program (proved).** -/
theorem accepted {P : α → Q → Prop} (h : wp M.world M.Allows p P q) (hy : Yields p tr a) :
    ∃ q', M.run q tr = some q' ∧ P a q' := by
  induction p generalizing q tr with
  | ret b =>
    obtain ⟨rfl, rfl⟩ := yields_ret.mp hy
    exact ⟨q, rfl, h⟩
  | call c k ih =>
    obtain ⟨r, tr', rfl, hrest⟩ := yields_call.mp hy
    obtain ⟨q₁, hq₁⟩ := Option.isSome_iff_exists.mp (h.1 r)
    obtain ⟨q', hq', hP⟩ := ih r (h.2 r q₁ hq₁) hrest
    refine ⟨q', ?_, hP⟩
    rw [run_cons, hq₁]
    exact hq'

/-- **Inside an accepted trace (proved).** -/
theorem exists_run_of_infix (h : M.run q tr = some q') (hin : tr' <:+: tr) :
    ∃ q₁ q₂, M.run q₁ tr' = some q₂ := by
  obtain ⟨before, after, rfl⟩ := hin
  rw [run_append, run_append] at h
  obtain ⟨q₂, h₂, -⟩ := Option.bind_eq_some_iff.mp h
  obtain ⟨q₁, -, h₁⟩ := Option.bind_eq_some_iff.mp h₂
  exact ⟨q₁, q₂, h₁⟩

end Monitor

/-- **A trace whose every event may happen is a run (proved)**, with the states it takes along. -/
theorem run_of_events {σ : Type} {W : World S σ} {f : σ → Event S → σ} {s : σ} {tr : List (Event S)}
    {p : Prog S α} {a : α} (hy : Yields p tr a) (h : ∀ e ∈ tr, ∀ s, W.reply s e.1 e.2 (f s e)) :
    Run W s p tr a (tr.foldl f s) := by
  induction p generalizing s tr with
  | ret b =>
    obtain ⟨rfl, rfl⟩ := yields_ret.mp hy
    exact .ret
  | call c k ih =>
    obtain ⟨r, tr', rfl, hrest⟩ := yields_call.mp hy
    exact .call (h ⟨c, r⟩ List.mem_cons_self s) (ih r hrest fun e he => h e (List.mem_cons_of_mem _ he))

/-- An event of a computed run has its command answered. -/
theorem answered_of_mem_trace {σ : Type} {h : σ → (c : S.Cmd) → S.Ans c × σ} {p : Prog S α} {s : σ}
    {e : Event S} (he : e ∈ p.trace h s) : ∃ s', e.2 = (h s' e.1).1 := by
  induction p generalizing s with
  | ret a => cases he
  | call c k ih =>
    rcases List.mem_cons.mp he with rfl | he
    · exact ⟨s, rfl⟩
    · exact ih _ he

end Programs
