import Mathlib

/-!
# Programs that issue commands, and their rules

A program over a signature of commands is a tree: it has returned, or it issues a command and goes
on with the answer.  The outside is a `World`: a relation saying which answers a command may get in
which state, and which state it leaves.  Nothing else about the outside is known to the program.

* `Prog`, `Fallible` — programs, and programs that may end in an error (Rust's `?`), as monads;
* `Run` — a complete run with its trace; `Issues` — the state in which a command is issued;
* `Yields` — a complete run where nothing is known of the outside; `run_seq` / `yields_seq` — **the
  cut rule**: a run of a sequence is a run of each part;
* `wp` — the weakest precondition: every command issued meets its obligation `I`, and every end
  meets the postcondition.  One rule a constructor: `wp_pure`, `wp_bind`, `wp_ask`, `wp_throw`,
  `wp_ofExcept`, `wp_forEach`;
* `wp_run` / `wp_issues` — **soundness**: what `wp` says holds of every run and of every command
  issued on the way;
* `Only` — which commands a program may issue, and `wp_only`: what all of them preserve, it does;
* `World.log` — the outside as the log of the run so far (`wp_log_yields`); `World.traced` — any
  outside with that log beside its state (`wp_traced`);
* `Prog.replay` — a program along a trace that is given (`replay_of_yields`);
* `Prog.interpret`, `Prog.trace` — one run computed from a function that answers (`run_trace`).
-/

namespace Programs

/-- The commands a program may issue, and what each is answered with. -/
structure Sig where
  Cmd : Type
  Ans : Cmd → Type

/-- A program: returned, or a command with what follows each answer. -/
inductive Prog (S : Sig) (α : Type) : Type where
  | ret : α → Prog S α
  | call : (c : S.Cmd) → (S.Ans c → Prog S α) → Prog S α

variable {S : Sig} {α β γ ε σ : Type}

namespace Prog

def bind : Prog S α → (α → Prog S β) → Prog S β
  | ret a, f => f a
  | call c k, f => call c fun r => bind (k r) f

instance : Monad (Prog S) where
  pure := ret
  bind := bind

/-- Issue one command and return its answer. -/
def ask (c : S.Cmd) : Prog S (S.Ans c) := call c ret

end Prog

/-- A program that may end in an error. -/
structure Fallible (S : Sig) (ε α : Type) where
  run : Prog S (Except ε α)

namespace Fallible

/-- Go on with the value, or end with the error. -/
def next (f : α → Fallible S ε β) : Except ε α → Prog S (Except ε β)
  | .ok a => (f a).run
  | .error e => .ret (.error e)

instance : Monad (Fallible S ε) where
  pure a := ⟨.ret (.ok a)⟩
  bind p f := ⟨Prog.bind p.run (next f)⟩

def throw (e : ε) : Fallible S ε α := ⟨.ret (.error e)⟩

/-- A pure computation that may fail. -/
def ofExcept (r : Except ε α) : Fallible S ε α := ⟨.ret r⟩

/-- A program that cannot fail, among those that may. -/
def lift (p : Prog S α) : Fallible S ε α := ⟨Prog.bind p fun a => .ret (.ok a)⟩

/-- Issue a command; `f` says what is made of the answer. -/
def issue (c : S.Cmd) (f : S.Ans c → Except ε α) : Fallible S ε α := ⟨.call c fun r => .ret (f r)⟩

/-- Run to the end either way: an error is a result like another. -/
def attempt (p : Fallible S ε α) : Fallible S ε (Except ε α) := lift p.run

/-- `f` on each element in order, up to the first error. -/
def forEach (f : γ → Fallible S ε Unit) : List γ → Fallible S ε Unit
  | [] => pure ()
  | x :: xs => do
    f x
    forEach f xs

end Fallible

/-! ### Worlds and runs -/

/-- What may happen outside: the answers a command may get in a state, and the state left. -/
structure World (S : Sig) (σ : Type) where
  reply : σ → (c : S.Cmd) → S.Ans c → σ → Prop

/-- One line of a trace: a command and the answer it got. -/
abbrev Event (S : Sig) := (c : S.Cmd) × S.Ans c

/-- A complete run from a state, with its trace, its result and the state left. -/
inductive Run (W : World S σ) : σ → Prog S α → List (Event S) → α → σ → Prop where
  | ret {s : σ} {a : α} : Run W s (.ret a) [] a s
  | call {s s₁ s₂ : σ} {c : S.Cmd} {k : S.Ans c → Prog S α} {r : S.Ans c}
      {tr : List (Event S)} {a : α} :
      W.reply s c r s₁ → Run W s₁ (k r) tr a s₂ → Run W s (.call c k) (⟨c, r⟩ :: tr) a s₂

/-- Somewhere on a run from `s`, the command `c` is issued in the state `s'`. -/
inductive Issues (W : World S σ) : σ → Prog S α → σ → S.Cmd → Prop where
  | here {s : σ} {c : S.Cmd} {k : S.Ans c → Prog S α} : Issues W s (.call c k) s c
  | later {s s₁ s' : σ} {c c' : S.Cmd} {k : S.Ans c → Prog S α} {r : S.Ans c} :
      W.reply s c r s₁ → Issues W s₁ (k r) s' c' → Issues W s (.call c k) s' c'

section Run

variable {W : World S σ} {s s' : σ} {tr : List (Event S)}

@[simp] theorem run_ret {a b : α} : Run W s (.ret a) tr b s' ↔ tr = [] ∧ b = a ∧ s' = s := by
  constructor
  · rintro ⟨⟩
    exact ⟨rfl, rfl, rfl⟩
  · rintro ⟨rfl, rfl, rfl⟩
    exact .ret

@[simp] theorem run_call {c : S.Cmd} {k : S.Ans c → Prog S α} {a : α} :
    Run W s (.call c k) tr a s' ↔
      ∃ r tr' s₁, tr = ⟨c, r⟩ :: tr' ∧ W.reply s c r s₁ ∧ Run W s₁ (k r) tr' a s' := by
  constructor
  · rintro ⟨⟩
    exact ⟨_, _, _, rfl, by assumption, by assumption⟩
  · rintro ⟨r, tr', s₁, rfl, hr, h⟩
    exact .call hr h

theorem run_cons {c : S.Cmd} {k : S.Ans c → Prog S α} {r : S.Ans c} {a : α} :
    Run W s (.call c k) (⟨c, r⟩ :: tr) a s' ↔ ∃ s₁, W.reply s c r s₁ ∧ Run W s₁ (k r) tr a s' := by
  constructor
  · intro h
    cases h with
    | call hr h => exact ⟨_, hr, h⟩
  · rintro ⟨s₁, hr, h⟩
    exact .call hr h

/-- **A run of a sequence is cut in two.** -/
@[simp] theorem run_seq {p : Prog S α} {f : α → Prog S β} {b : β} :
    Run W s (p >>= f) tr b s' ↔
      ∃ tr₁ a s₁ tr₂, tr = tr₁ ++ tr₂ ∧ Run W s p tr₁ a s₁ ∧ Run W s₁ (f a) tr₂ b s' := by
  change Run W s (Prog.bind p f) tr b s' ↔ _
  induction p generalizing tr s with
  | ret a =>
    constructor
    · exact fun h => ⟨[], a, s, tr, rfl, .ret, h⟩
    · rintro ⟨tr₁, a', s₁, tr₂, rfl, h₁, h₂⟩
      cases h₁
      exact h₂
  | call c k ih =>
    constructor
    · intro h
      rw [Prog.bind] at h
      obtain ⟨r, tr', s₁, rfl, hr, hrest⟩ := run_call.mp h
      obtain ⟨tr₁, a, s₂, tr₂, rfl, h₁, h₂⟩ := (ih r).mp hrest
      exact ⟨_, a, s₂, tr₂, rfl, .call hr h₁, h₂⟩
    · rintro ⟨tr₁, a, s₂, tr₂, rfl, h₁, h₂⟩
      obtain ⟨r, tr', s₁, rfl, hr, hrest⟩ := run_call.mp h₁
      exact .call hr ((ih r).mpr ⟨tr', a, s₂, tr₂, rfl, hrest, h₂⟩)

@[simp] theorem run_pure {a b : α} :
    Run W s (pure a : Prog S α) tr b s' ↔ tr = [] ∧ b = a ∧ s' = s :=
  run_ret

@[simp] theorem run_ask {c : S.Cmd} {r : S.Ans c} :
    Run W s (Prog.ask c) tr r s' ↔ tr = [⟨c, r⟩] ∧ W.reply s c r s' := by
  constructor
  · intro h
    obtain ⟨r', tr', s₁, rfl, hr, hrest⟩ := run_call.mp h
    obtain ⟨rfl, rfl, rfl⟩ := run_ret.mp hrest
    exact ⟨rfl, hr⟩
  · rintro ⟨rfl, hr⟩
    exact .call hr .ret

/-- A run of a sequence that may fail: an error of the first part ends it. -/
theorem run_bind {p : Fallible S ε α} {f : α → Fallible S ε β} {r : Except ε β} :
    Run W s (p >>= f).run tr r s' ↔
      (∃ e, Run W s p.run tr (.error e) s' ∧ r = .error e) ∨
        ∃ tr₁ a s₁ tr₂, tr = tr₁ ++ tr₂ ∧ Run W s p.run tr₁ (.ok a) s₁ ∧
          Run W s₁ (f a).run tr₂ r s' := by
  refine run_seq.trans ⟨?_, ?_⟩
  · rintro ⟨tr₁, a, s₁, tr₂, rfl, hp, hf⟩
    cases a with
    | ok a => exact .inr ⟨tr₁, a, s₁, tr₂, rfl, hp, hf⟩
    | error e =>
      obtain ⟨rfl, rfl, rfl⟩ := run_ret.mp hf
      exact .inl ⟨e, by rwa [List.append_nil], rfl⟩
  · rintro (⟨e, hp, rfl⟩ | ⟨tr₁, a, s₁, tr₂, rfl, hp, hf⟩)
    · exact ⟨tr, .error e, s', [], (List.append_nil _).symm, hp, .ret⟩
    · exact ⟨tr₁, .ok a, s₁, tr₂, rfl, hp, hf⟩

theorem run_bind_ok {p : Fallible S ε α} {f : α → Fallible S ε β} {b : β}
    (h : Run W s (p >>= f).run tr (.ok b) s') : ∃ tr₁ a s₁ tr₂, tr = tr₁ ++ tr₂ ∧
      Run W s p.run tr₁ (.ok a) s₁ ∧ Run W s₁ (f a).run tr₂ (.ok b) s' :=
  (run_bind.mp h).resolve_left nofun

/-- A run is a run of every world that gives these answers. -/
theorem run_mono {W' : World S σ} (hW : ∀ s c r s', W.reply s c r s' → W'.reply s c r s')
    {p : Prog S α} {a : α} (h : Run W s p tr a s') : Run W' s p tr a s' := by
  induction h with
  | ret => exact .ret
  | call hr _ ih => exact .call (hW _ _ _ _ hr) ih

theorem run_ofExcept {r a : Except ε α} :
    Run W s (Fallible.ofExcept r : Fallible S ε α).run tr a s' ↔ tr = [] ∧ a = r ∧ s' = s := run_ret

theorem run_issue {c : S.Cmd} {f : S.Ans c → Except ε α} {a : Except ε α} :
    Run W s (Fallible.issue c f).run tr a s' ↔ ∃ r, tr = [⟨c, r⟩] ∧ W.reply s c r s' ∧ a = f r := by
  refine run_call.trans ⟨?_, ?_⟩
  · rintro ⟨r, tr', s₁, rfl, hr, h⟩
    obtain ⟨rfl, rfl, rfl⟩ := run_ret.mp h
    exact ⟨r, rfl, hr, rfl⟩
  · rintro ⟨r, rfl, hr, rfl⟩
    exact ⟨r, [], s', rfl, hr, .ret⟩

theorem run_askSeq {c : S.Cmd} {k : S.Ans c → Prog S α} {r : S.Ans c} {a : α} :
    Run W s (Prog.ask c >>= k) (⟨c, r⟩ :: tr) a s' ↔
      ∃ s₁, W.reply s c r s₁ ∧ Run W s₁ (k r) tr a s' :=
  run_cons

end Run

/-- An outside of which nothing is known. -/
def World.any : World S Unit := ⟨fun _ _ _ _ => True⟩

/-- A complete run of a program, whatever the outside is: its trace and its result. -/
def Yields (p : Prog S α) (tr : List (Event S)) (a : α) : Prop := Run World.any () p tr a ()

section Yields

variable {tr : List (Event S)}

theorem yields_of_run {W : World S σ} {p : Prog S α} {s s' : σ} {a : α}
    (h : Run W s p tr a s') : Yields p tr a := by
  induction h with
  | ret => exact .ret
  | call _ _ ih => exact .call trivial ih

@[simp] theorem yields_ret {a b : α} : Yields (.ret a : Prog S α) tr b ↔ tr = [] ∧ b = a := by
  simp [Yields]

@[simp] theorem yields_call {c : S.Cmd} {k : S.Ans c → Prog S α} {a : α} :
    Yields (.call c k) tr a ↔ ∃ r tr', tr = ⟨c, r⟩ :: tr' ∧ Yields (k r) tr' a :=
  run_call.trans ⟨fun ⟨r, tr', _, htr, _, h⟩ => ⟨r, tr', htr, h⟩,
    fun ⟨r, tr', htr, h⟩ => ⟨r, tr', (), htr, trivial, h⟩⟩

theorem yields_cons {c : S.Cmd} {k : S.Ans c → Prog S α} {r : S.Ans c} {a : α} :
    Yields (.call c k) (⟨c, r⟩ :: tr) a ↔ Yields (k r) tr a :=
  run_cons.trans ⟨fun ⟨_, _, h⟩ => h, fun h => ⟨(), trivial, h⟩⟩

@[simp] theorem yields_seq {p : Prog S α} {f : α → Prog S β} {b : β} :
    Yields (p >>= f) tr b ↔
      ∃ tr₁ a tr₂, tr = tr₁ ++ tr₂ ∧ Yields p tr₁ a ∧ Yields (f a) tr₂ b :=
  run_seq.trans ⟨fun ⟨tr₁, a, _, tr₂, h⟩ => ⟨tr₁, a, tr₂, h⟩,
    fun ⟨tr₁, a, tr₂, h⟩ => ⟨tr₁, a, (), tr₂, h⟩⟩

@[simp] theorem yields_pure {a b : α} : Yields (pure a : Prog S α) tr b ↔ tr = [] ∧ b = a :=
  yields_ret

@[simp] theorem yields_ask {c : S.Cmd} {r : S.Ans c} :
    Yields (Prog.ask c) tr r ↔ tr = [⟨c, r⟩] := by
  simp [Yields, World.any]

/-- A sequence ends well when each part does. -/
theorem yields_bind_ok {p : Fallible S ε α} {f : α → Fallible S ε β} {b : β} :
    Yields (p >>= f).run tr (.ok b) ↔
      ∃ tr₁ a tr₂, tr = tr₁ ++ tr₂ ∧ Yields p.run tr₁ (.ok a) ∧ Yields (f a).run tr₂ (.ok b) := by
  refine yields_seq.trans ⟨?_, ?_⟩
  · rintro ⟨tr₁, r, tr₂, rfl, hp, hf⟩
    cases r with
    | ok a => exact ⟨tr₁, a, tr₂, rfl, hp, hf⟩
    | error e => cases (yields_ret.mp hf).2
  · rintro ⟨tr₁, a, tr₂, rfl, hp, hf⟩
    exact ⟨tr₁, .ok a, tr₂, rfl, hp, hf⟩

theorem yields_ofExcept {r : Except ε α} {a : Except ε α} :
    Yields (Fallible.ofExcept r : Fallible S ε α).run tr a ↔ tr = [] ∧ a = r := yields_ret

theorem yields_issue {c : S.Cmd} {f : S.Ans c → Except ε α} {a : Except ε α} :
    Yields (Fallible.issue c f).run tr a ↔ ∃ r, tr = [⟨c, r⟩] ∧ a = f r := by
  refine yields_call.trans ⟨?_, ?_⟩
  · rintro ⟨r, tr', rfl, h⟩
    obtain ⟨rfl, rfl⟩ := yields_ret.mp h
    exact ⟨r, rfl, rfl⟩
  · rintro ⟨r, rfl, rfl⟩
    exact ⟨r, [], rfl, yields_ret.mpr ⟨rfl, rfl⟩⟩
end Yields

/-! ### The weakest precondition -/

/-- Every command issued meets `I` in the state it is issued in, and every end meets `Q`. -/
def wp (W : World S σ) (I : σ → S.Cmd → Prop) : Prog S α → (α → σ → Prop) → σ → Prop
  | .ret a, Q, s => Q a s
  | .call c k, Q, s => I s c ∧ ∀ r s', W.reply s c r s' → wp W I (k r) Q s'

/-- The two postconditions of a program that may fail, as one. -/
def Ends (Q : α → σ → Prop) (E : ε → σ → Prop) : Except ε α → σ → Prop
  | .ok a => Q a
  | .error e => E e

@[simp] theorem ends_ok (Q : α → σ → Prop) (E : ε → σ → Prop) (a : α) :
    Ends Q E (.ok a) = Q a := rfl

@[simp] theorem ends_error (Q : α → σ → Prop) (E : ε → σ → Prop) (e : ε) :
    Ends Q E (.error e) = E e := rfl

/-- Every postcondition is one for each of the two ends. -/
theorem ends_eta (Q : Except ε α → σ → Prop) :
    Ends (fun a => Q (.ok a)) (fun e => Q (.error e)) = Q := by
  funext r
  cases r <;> rfl

section Rules

variable {W : World S σ} {I : σ → S.Cmd → Prop}

/-- What is always met says nothing. -/
theorem wp_trivial {p : Prog S α} {s : σ} (hI : ∀ s c, I s c) : wp W I p (fun _ _ => True) s := by
  induction p generalizing s with
  | ret a => trivial
  | call c k ih => exact ⟨hI s c, fun r s' _ => ih r⟩

theorem wp_bindProg (p : Prog S α) (f : α → Prog S β) (Q : β → σ → Prop) (s : σ) :
    wp W I (Prog.bind p f) Q s ↔ wp W I p (fun a => wp W I (f a) Q) s := by
  induction p generalizing s with
  | ret a => rfl
  | call c k ih => simp only [Prog.bind, wp, ih]

/-- **Consequence.** -/
theorem wp_mono {p : Prog S α} {Q Q' : α → σ → Prop} {s : σ} (h : wp W I p Q s)
    (hQ : ∀ a s, Q a s → Q' a s) : wp W I p Q' s := by
  induction p generalizing s with
  | ret a => exact hQ a s h
  | call c k ih => exact ⟨h.1, fun r s' hr => ih r (h.2 r s' hr)⟩

/-- Consequence for the two ends of a program that may fail. -/
theorem wp_ends_mono {p : Prog S (Except ε α)} {Q Q' : α → σ → Prop} {E E' : ε → σ → Prop} {s : σ}
    (h : wp W I p (Ends Q E) s) (hQ : ∀ a s, Q a s → Q' a s) (hE : ∀ e s, E e s → E' e s) :
    wp W I p (Ends Q' E') s := by
  refine wp_mono h fun r s' hr => ?_
  cases r with
  | ok a => exact hQ a s' hr
  | error e => exact hE e s' hr

theorem wp_and {p : Prog S α} {Q Q' : α → σ → Prop} {s : σ} (h : wp W I p Q s)
    (h' : wp W I p Q' s) : wp W I p (fun a s => Q a s ∧ Q' a s) s := by
  induction p generalizing s with
  | ret a => exact ⟨h, h'⟩
  | call c k ih => exact ⟨h.1, fun r s' hr => ih r (h.2 r s' hr) (h'.2 r s' hr)⟩

@[simp] theorem wp_ret (a : α) (Q : α → σ → Prop) (s : σ) : wp W I (.ret a) Q s ↔ Q a s := Iff.rfl

@[simp] theorem wp_retProg (a : α) (Q : α → σ → Prop) (s : σ) :
    wp W I (pure a : Prog S α) Q s ↔ Q a s := Iff.rfl

@[simp] theorem wp_seq (p : Prog S α) (f : α → Prog S β) (Q : β → σ → Prop) (s : σ) :
    wp W I (p >>= f) Q s ↔ wp W I p (fun a => wp W I (f a) Q) s :=
  wp_bindProg p f Q s

/-- **The command rule.**  The obligation now, and the rest for every answer. -/
@[simp] theorem wp_ask (c : S.Cmd) (Q : S.Ans c → σ → Prop) (s : σ) :
    wp W I (Prog.ask c) Q s ↔ I s c ∧ ∀ r s', W.reply s c r s' → Q r s' := Iff.rfl

variable {Q : α → σ → Prop} {E : ε → σ → Prop} {s : σ}

@[simp] theorem wp_pure (a : α) :
    wp W I (pure a : Fallible S ε α).run (Ends Q E) s ↔ Q a s := Iff.rfl

@[simp] theorem wp_throw (e : ε) :
    wp W I (Fallible.throw e : Fallible S ε α).run (Ends Q E) s ↔ E e s := Iff.rfl

@[simp] theorem wp_ofExcept (r : Except ε α) :
    wp W I (Fallible.ofExcept r : Fallible S ε α).run (Ends Q E) s ↔ Ends Q E r s := Iff.rfl

/-- **The sequencing rule**: an error of the first part is an error of the whole. -/
@[simp] theorem wp_bind (p : Fallible S ε β) (f : β → Fallible S ε α) :
    wp W I (p >>= f).run (Ends Q E) s
      ↔ wp W I p.run (Ends (fun b => wp W I (f b).run (Ends Q E)) E) s := by
  change wp W I (Prog.bind p.run (Fallible.next f)) (Ends Q E) s ↔ _
  have hpost : (fun r => wp W I (Fallible.next f r) (Ends Q E))
      = Ends (fun b => wp W I (f b).run (Ends Q E)) E := by
    funext r
    cases r <;> rfl
  rw [wp_bindProg, hpost]

/-- The sequencing rule where the first part keeps an invariant, however it ends. -/
theorem wp_bind_inv {P : σ → Prop} {p : Fallible S ε β} {f : β → Fallible S ε α}
    (h : wp W I p.run (fun _ => P) s) (hf : ∀ b s, P s → wp W I (f b).run (Ends Q E) s)
    (hE : ∀ e s, P s → E e s) : wp W I (p >>= f).run (Ends Q E) s := by
  rw [wp_bind]
  refine wp_mono h fun r s' hs' => ?_
  cases r with
  | ok b => exact hf b s' hs'
  | error e => exact hE e s' hs'

@[simp] theorem wp_lift (p : Prog S α) :
    wp W I (Fallible.lift p : Fallible S ε α).run (Ends Q E) s ↔ wp W I p Q s := by
  rw [Fallible.lift, wp_bindProg]
  rfl

@[simp] theorem wp_issue (c : S.Cmd) (f : S.Ans c → Except ε α) :
    wp W I (Fallible.issue c f).run (Ends Q E) s
      ↔ I s c ∧ ∀ r s', W.reply s c r s' → Ends Q E (f r) s' := Iff.rfl

@[simp] theorem wp_attempt (p : Fallible S ε β) {Q : Except ε β → σ → Prop} :
    wp W I (Fallible.attempt p).run (Ends Q E) s ↔ wp W I p.run Q s :=
  wp_lift p.run

/-- **The loop rule.**  `J done rest` holds between two elements; each element moves itself from
`rest` to `done`. -/
theorem wp_forEach (f : γ → Fallible S ε Unit) (J : List γ → List γ → σ → Prop)
    (hstep : ∀ done x rest s, J done (x :: rest) s →
      wp W I (f x).run (Ends (fun _ => J (done ++ [x]) rest) E) s)
    (xs done : List γ) (s : σ) (hJ : J done xs s) :
    wp W I (Fallible.forEach f xs).run (Ends (fun _ => J (done ++ xs) []) E) s := by
  induction xs generalizing done s with
  | nil => simpa [Fallible.forEach] using hJ
  | cons x xs ih =>
    rw [Fallible.forEach, wp_bind]
    refine wp_ends_mono (hstep done x xs s hJ) (fun _ s' hs' => ?_) (fun _ _ h => h)
    simpa using ih (done ++ [x]) s' hs'

end Rules

/-! ### Soundness -/

variable {W : World S σ} {I : σ → S.Cmd → Prop}

/-- **Every end of every run meets the postcondition.** -/
theorem wp_run {p : Prog S α} {Q : α → σ → Prop} {s s' : σ} {tr : List (Event S)} {a : α}
    (h : wp W I p Q s) (hr : Run W s p tr a s') : Q a s' := by
  induction hr with
  | ret => exact h
  | call hc _ ih => exact ih (h.2 _ _ hc)

/-- **Every command issued meets its obligation.** -/
theorem wp_issues {p : Prog S α} {Q : α → σ → Prop} {s s' : σ} {c : S.Cmd}
    (h : wp W I p Q s) (hi : Issues W s p s' c) : I s' c := by
  induction hi with
  | here => exact h.1
  | later hc _ ih => exact ih (h.2 _ _ hc)

/-- The same for every event of a run. -/
theorem wp_events {p : Prog S α} {Q : α → σ → Prop} {K : S.Cmd → Prop} {s s' : σ}
    {tr : List (Event S)} {a : α} (h : wp W (fun _ c => K c) p Q s) (hr : Run W s p tr a s') :
    ∀ e ∈ tr, K e.1 := by
  induction hr with
  | ret => exact nofun
  | call hc _ ih =>
    intro e he
    rcases List.mem_cons.mp he with rfl | he
    · exact h.1
    · exact ih (h.2 _ _ hc) e he

/-! ### What a program gives -/

/-- Whatever the outside is, `Q` holds of the value when the program ends well. -/
def Gives (p : Fallible S ε α) (Q : α → Prop) : Prop :=
  wp World.any (fun _ _ => True) p.run (Ends (fun a _ => Q a) fun _ _ => True) ()

section Gives

variable {Q : α → Prop}

theorem gives_pure {a : α} (h : Q a) : Gives (pure a : Fallible S ε α) Q := h

theorem gives_ofExcept {r : Except ε α} (h : ∀ a, r = .ok a → Q a) :
    Gives (Fallible.ofExcept r : Fallible S ε α) Q := by
  cases r with
  | ok a => exact h a rfl
  | error e => trivial

theorem gives_issue {c : S.Cmd} {f : S.Ans c → Except ε α} (h : ∀ r a, f r = .ok a → Q a) :
    Gives (Fallible.issue c f : Fallible S ε α) Q := by
  refine ⟨trivial, fun r s _ => ?_⟩
  show Ends _ _ (f r) s
  cases hr : f r with
  | ok a => exact h r a hr
  | error e => trivial

theorem gives_bind {p : Fallible S ε β} {f : β → Fallible S ε α} {Q' : β → Prop}
    (h : Gives p Q') (hf : ∀ b, Q' b → Gives (f b) Q) : Gives (p >>= f) Q := by
  rw [Gives, wp_bind]
  exact wp_ends_mono h (fun b _ hb => hf b hb) fun _ _ _ => trivial

theorem gives_true {p : Fallible S ε α} : Gives p fun _ => True := by
  refine wp_mono (wp_trivial fun _ _ => trivial) fun r _ _ => ?_
  cases r <;> trivial

end Gives

/-! ### Programs that issue only some commands -/

/-- Every command the program may issue is one of `K`. -/
def Only (K : S.Cmd → Prop) : Prog S α → Prop
  | .ret _ => True
  | .call c k => K c ∧ ∀ r, Only K (k r)

section Only

variable {K K' : S.Cmd → Prop}

theorem only_mono {p : Prog S α} (h : Only K p) (hK : ∀ c, K c → K' c) : Only K' p := by
  induction p with
  | ret a => trivial
  | call c k ih => exact ⟨hK c h.1, fun r => ih r (h.2 r)⟩

theorem only_and {p : Prog S α} (h : Only K p) (h' : Only K' p) : Only (fun c => K c ∧ K' c) p := by
  induction p with
  | ret a => trivial
  | call c k ih => exact ⟨⟨h.1, h'.1⟩, fun r => ih r (h.2 r) (h'.2 r)⟩

theorem only_true {p : Prog S α} : Only (fun _ => True) p := by
  induction p with
  | ret a => trivial
  | call c k ih => exact ⟨trivial, ih⟩

theorem only_bindProg {p : Prog S α} {f : α → Prog S β} (h : Only K p) (hf : ∀ a, Only K (f a)) :
    Only K (Prog.bind p f) := by
  induction p with
  | ret a => exact hf a
  | call c k ih => exact ⟨h.1, fun r => ih r (h.2 r)⟩

theorem only_bind {p : Fallible S ε α} {f : α → Fallible S ε β} (h : Only K p.run)
    (hf : ∀ a, Only K (f a).run) : Only K (p >>= f).run := by
  refine only_bindProg h fun r => ?_
  cases r with
  | ok a => exact hf a
  | error e => trivial

theorem only_issue {c : S.Cmd} (h : K c) (f : S.Ans c → Except ε α) :
    Only K (Fallible.issue c f : Fallible S ε α).run := ⟨h, fun _ => trivial⟩

theorem only_pure (a : α) : Only K (pure a : Fallible S ε α).run := trivial

theorem only_ofExcept (r : Except ε α) : Only K (Fallible.ofExcept r : Fallible S ε α).run := trivial

/-- What a pure computation yields is known where the program goes on. -/
theorem only_ofExcept_bind {r : Except ε α} {f : α → Fallible S ε β}
    (hf : ∀ a, r = .ok a → Only K (f a).run) :
    Only K (Fallible.ofExcept r >>= f : Fallible S ε β).run := by
  cases r with
  | ok a => exact hf a rfl
  | error e => trivial

/-- What the first part gives is known where the program goes on. -/
theorem only_bind_gives {p : Fallible S ε α} {f : α → Fallible S ε β} {Q : α → Prop}
    (h : Only K p.run) (hQ : Gives p Q) (hf : ∀ a, Q a → Only K (f a).run) :
    Only K (p >>= f).run := by
  show Only K (Prog.bind p.run (Fallible.next f))
  unfold Gives at hQ
  generalize p.run = q at h hQ
  induction q with
  | ret r =>
    cases r with
    | ok a => exact hf a hQ
    | error e => trivial
  | call c k ih => exact ⟨h.1, fun r => ih r (h.2 r) (hQ.2 r () trivial)⟩

theorem only_throw (e : ε) : Only K (Fallible.throw e : Fallible S ε α).run := trivial

theorem only_attempt {p : Fallible S ε α} (h : Only K p.run) : Only K p.attempt.run :=
  only_bindProg h fun _ => trivial

theorem only_forEach {f : γ → Fallible S ε Unit} {xs : List γ} (h : ∀ x ∈ xs, Only K (f x).run) :
    Only K (Fallible.forEach f xs).run := by
  induction xs with
  | nil => trivial
  | cons x xs ih =>
    exact only_bind (h x (by simp)) fun _ => ih fun y hy => h y (by simp [hy])

/-- **What every one of the commands preserves, the program preserves.** -/
theorem wp_only {W : World S σ} {I : σ → S.Cmd → Prop} {P : σ → Prop} {p : Prog S α} {s : σ}
    (h : Only K p) (hstep : ∀ s c r s', K c → P s → W.reply s c r s' → P s')
    (hI : ∀ s c, K c → P s → I s c) (hs : P s) : wp W I p (fun _ => P) s := by
  induction p generalizing s with
  | ret a => exact hs
  | call c k ih => exact ⟨hI s c h.1 hs, fun r s' hr => ih r (h.2 r) (hstep s c r s' h.1 hs hr)⟩

/-- What a program may issue is known apart from where it ends. -/
theorem wp_of_only {W : World S σ} {I : σ → S.Cmd → Prop} {Q : α → σ → Prop} {p : Prog S α} {s : σ}
    (h : Only K p) (hI : ∀ s c, K c → I s c) (hp : wp W (fun _ _ => True) p Q s) : wp W I p Q s := by
  induction p generalizing s with
  | ret a => exact hp
  | call c k ih => exact ⟨hI s c h.1, fun r s' hr => ih r (h.2 r) (hp.2 r s' hr)⟩

/-- Every event of a run is one of the commands the program may issue. -/
theorem only_events {p : Prog S α} {tr : List (Event S)} {a : α} (h : Only K p)
    (hy : Yields p tr a) : ∀ e ∈ tr, K e.1 := by
  induction p generalizing tr with
  | ret b =>
    obtain ⟨rfl, -⟩ := yields_ret.mp hy
    exact nofun
  | call c k ih =>
    obtain ⟨r, tr', rfl, hrest⟩ := yields_call.mp hy
    intro e he
    rcases List.mem_cons.mp he with rfl | he
    · exact h.1
    · exact ih r (h.2 r) hrest e he

end Only

/-! ### The log of a run -/

/-- An outside of which nothing is known but what was issued and answered so far. -/
def World.log : World S (List (Event S)) := ⟨fun l c r l' => l' = l ++ [⟨c, r⟩]⟩

section Log

variable {K : S.Cmd → Prop} {I : List (Event S) → S.Cmd → Prop} {l tr : List (Event S)}

/-- **What is proved against the log holds along every run, in any world**: each command met its
obligation when it was issued, and the end is reached with the whole log. -/
theorem wp_log_yields {p : Prog S α} {Q : α → List (Event S) → Prop} {a : α}
    (h : wp World.log I p Q l) (hy : Yields p tr a) :
    Q a (l ++ tr) ∧ ∀ before e after, tr = before ++ e :: after → I (l ++ before) e.1 := by
  induction p generalizing l tr with
  | ret b =>
    obtain ⟨rfl, rfl⟩ := yields_ret.mp hy
    refine ⟨by rw [List.append_nil]; exact h, fun before e after he => ?_⟩
    simp at he
  | call c k ih =>
    obtain ⟨r, tr', rfl, hrest⟩ := yields_call.mp hy
    obtain ⟨hI, hnext⟩ := h
    obtain ⟨hQ, hall⟩ := ih r (hnext r _ rfl) hrest
    rw [List.append_assoc] at hQ
    refine ⟨hQ, fun before e after he => ?_⟩
    cases before with
    | nil =>
      obtain ⟨rfl, -⟩ := List.cons.inj he
      rw [List.append_nil]
      exact hI
    | cons e' before =>
      obtain ⟨rfl, hrest⟩ := List.cons.inj he
      have hlater := hall before e after hrest
      rw [List.append_assoc] at hlater
      exact hlater

/-- A program that issues only commands whose obligation is met adds its own run to the log. -/
theorem wp_log_only {p : Prog S α} (h : Only K p)
    (hI : ∀ done c, (∀ e ∈ done, K e.1) → K c → I (l ++ done) c) :
    wp World.log I p (fun a l' => ∃ tr, l' = l ++ tr ∧ Yields p tr a ∧ ∀ e ∈ tr, K e.1) l := by
  induction p generalizing l with
  | ret a => exact ⟨[], by simp, .ret, nofun⟩
  | call c k ih =>
    refine ⟨by simpa using hI [] c nofun h.1, ?_⟩
    rintro r _ rfl
    have hcons : ∀ done : List (Event S), (∀ e ∈ done, K e.1) →
        ∀ e ∈ (⟨c, r⟩ : Event S) :: done, K e.1 := by
      intro done hdone e he
      rcases List.mem_cons.mp he with rfl | he
      · exact h.1
      · exact hdone e he
    refine wp_mono (ih r (h.2 r) fun done c' hdone hc' => ?_) ?_
    · have hI' := hI (⟨c, r⟩ :: done) c' (hcons done hdone) hc'
      rwa [List.append_cons] at hI'
    · rintro a _ ⟨tr, rfl, hy, hall⟩
      exact ⟨⟨c, r⟩ :: tr, by simp, .call trivial hy, hcons tr hall⟩

end Log

/-! ### A state with the trace that led to it -/

/-- The outside, with the trace of the run so far beside its state. -/
def World.traced (W : World S σ) : World S (σ × List (Event S)) :=
  ⟨fun s c r s' => W.reply s.1 c r s'.1 ∧ s'.2 = s.2 ++ [⟨c, r⟩]⟩

section Traced

variable {W : World S σ} {s s' : σ} {l tr : List (Event S)}

theorem run_traced {p : Prog S α} {a : α} (h : Run W s p tr a s') :
    Run W.traced (s, l) p tr a (s', l ++ tr) := by
  induction h generalizing l with
  | ret =>
    rw [List.append_nil]
    exact .ret
  | @call s s₁ s₂ c k r tr a hr _ ih =>
    rw [List.append_cons]
    have hfirst : W.traced.reply (s, l) c r (s₁, l ++ [⟨c, r⟩]) := ⟨hr, rfl⟩
    exact .call hfirst ih

/-- **What is proved of the states is proved of them with the trace**, and the program's own run is
added to it. -/
theorem wp_traced {I : σ → S.Cmd → Prop} {p : Prog S α} {Q : α → σ → Prop} {s : σ × List (Event S)}
    (h : wp W I p Q s.1) :
    wp W.traced (fun s => I s.1) p (fun a s' => Q a s'.1 ∧ ∃ tr, s'.2 = s.2 ++ tr ∧ Yields p tr a) s := by
  induction p generalizing s with
  | ret a => exact ⟨h, [], (List.append_nil _).symm, .ret⟩
  | call c k ih =>
    refine ⟨h.1, fun r s₁ hr => ?_⟩
    refine wp_mono (ih r (h.2 r s₁.1 hr.1)) ?_
    rintro a s₂ ⟨hQ, tr, htr, hy⟩
    exact ⟨hQ, ⟨c, r⟩ :: tr, by rw [htr, hr.2, ← List.append_cons], .call trivial hy⟩

end Traced

/-! ### A program along a trace -/

section Replay

variable [DecidableEq S.Cmd]

/-- The program along a trace: what it returns, and what is left of the trace. -/
def Prog.replay : Prog S α → List (Event S) → Option (α × List (Event S))
  | .ret a, tr => some (a, tr)
  | .call _ _, [] => none
  | .call c k, e :: tr => if h : e.1 = c then replay (k (h ▸ e.2)) tr else none

theorem replay_of_yields {p : Prog S α} {tr : List (Event S)} {a : α} (h : Yields p tr a)
    (rest : List (Event S)) : p.replay (tr ++ rest) = some (a, rest) := by
  induction p generalizing tr with
  | ret b =>
    obtain ⟨rfl, rfl⟩ := yields_ret.mp h
    rfl
  | call c k ih =>
    obtain ⟨r, tr', rfl, hrest⟩ := yields_call.mp h
    rw [List.cons_append, Prog.replay, dif_pos rfl]
    exact ih r hrest

end Replay

/-! ### One run, computed -/

namespace Prog

/-- The run in which `h` gives every answer: its result, and the state left. -/
def interpret (h : σ → (c : S.Cmd) → S.Ans c × σ) : Prog S α → σ → α × σ
  | .ret a, s => (a, s)
  | .call c k, s => interpret h (k (h s c).1) (h s c).2

/-- The trace of that run. -/
def trace (h : σ → (c : S.Cmd) → S.Ans c × σ) : Prog S α → σ → List (Event S)
  | .ret _, _ => []
  | .call c k, s => ⟨c, (h s c).1⟩ :: trace h (k (h s c).1) (h s c).2

/-- The first command of a kind in that run, with the state it is issued in. -/
def firstIssued (h : σ → (c : S.Cmd) → S.Ans c × σ) (kind : S.Cmd → Bool) :
    Prog S α → σ → Option (S.Cmd × σ)
  | .ret _, _ => none
  | .call c k, s =>
    if kind c then some (c, s) else firstIssued h kind (k (h s c).1) (h s c).2

end Prog

section Interpret

variable {h : σ → (c : S.Cmd) → S.Ans c × σ}

theorem run_trace (hh : ∀ s c, W.reply s c (h s c).1 (h s c).2) (p : Prog S α) (s : σ) :
    Run W s p (p.trace h s) (p.interpret h s).1 (p.interpret h s).2 := by
  induction p generalizing s with
  | ret a => exact .ret
  | call c k ih => exact .call (hh s c) (ih _ _)

/-- Answers that the world may give make a run of it. -/
theorem run_interpret (hh : ∀ s c, W.reply s c (h s c).1 (h s c).2) (p : Prog S α) (s : σ) :
    ∃ tr, Run W s p tr (p.interpret h s).1 (p.interpret h s).2 :=
  ⟨_, run_trace hh p s⟩

theorem issues_of_firstIssued (hh : ∀ s c, W.reply s c (h s c).1 (h s c).2) {kind : S.Cmd → Bool}
    {p : Prog S α} {s s' : σ} {c : S.Cmd} (hf : p.firstIssued h kind s = some (c, s')) :
    Issues W s p s' c := by
  induction p generalizing s with
  | ret a => cases hf
  | call c' k ih =>
    rw [Prog.firstIssued] at hf
    split_ifs at hf with hk
    · cases hf
      exact .here
    · exact .later (hh s c') (ih _ hf)

theorem kind_of_firstIssued {kind : S.Cmd → Bool} {p : Prog S α} {s s' : σ} {c : S.Cmd}
    (hf : p.firstIssued h kind s = some (c, s')) : kind c = true := by
  induction p generalizing s with
  | ret a => cases hf
  | call c' k ih =>
    rw [Prog.firstIssued] at hf
    split_ifs at hf with hk
    · cases hf
      exact hk
    · exact ih _ hf

end Interpret

end Programs
