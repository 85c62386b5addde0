import PveCompose.Lib.Program

/-!
# Parties that take turns

Several parties run programs over one shared state.  After each command of one party there may come
any number of commands of the others, and of steps the environment takes by itself; a party whose
program has ended may start another.

* `Threads`, `Step` — the parties and one step of all together;
* `Discipline` — what makes a proof of each program by itself a proof of all: every party relies on
  the others (`R`), every command meets its obligation (`I`), and the invariant `J` holds between any
  two steps.  A program is proved over the world in which the others may come after every answer
  (`Threads.among`), with the rules of `wp`;
* `Discipline.step` — **PROVED**: a step keeps every party's proof, and what was done met its
  obligation;
* `Discipline.steps`, `Discipline.mono` — **the run lemmas**: what holds between any two steps, and
  what is never undone;
* `play` / `steps_play` — one interleaving, computed.
-/

namespace Programs

variable {S : Sig} {α σ ι : Type}

/-- The program for its commands alone. -/
def Prog.void (p : Prog S α) : Prog S Unit := Prog.bind p fun _ => .ret ()

theorem wp_void {W : World S σ} {I : σ → S.Cmd → Prop} {p : Prog S α} {s : σ}
    (h : wp W I p (fun _ _ => True) s) : wp W I p.void (fun _ _ => True) s := by
  rw [Prog.void, wp_bindProg]
  exact h

/-- What a command of a party does, what happens by itself, and what a party may start. -/
structure Threads (S : Sig) (σ ι : Type) where
  act : ι → σ → (c : S.Cmd) → S.Ans c → σ → Prop
  env : σ → σ → Prop
  starts : ι → Prog S Unit → Prop

/-- The shared state, and what is left of each party's program. -/
structure Crew (S : Sig) (σ ι : Type) where
  state : σ
  progs : ι → Prog S Unit

/-- Nobody has begun. -/
def Crew.idle (s : σ) : Crew S σ ι := ⟨s, fun _ => .ret ()⟩

/-- A condition on a command a party issues, the state it is issued in and its answer. -/
abbrev Proviso (S : Sig) (σ ι : Type) := ι → σ → (c : S.Cmd) → S.Ans c → Prop

section

variable [DecidableEq ι]

/-- One step of one party or of the environment; every command meets `C`. -/
inductive Step (T : Threads S σ ι) (C : Proviso S σ ι) : Crew S σ ι → Crew S σ ι → Prop where
  | act {w : Crew S σ ι} {i : ι} {c : S.Cmd} {k : S.Ans c → Prog S Unit} {r : S.Ans c} {s' : σ} :
      w.progs i = .call c k → C i w.state c r → T.act i w.state c r s' →
      Step T C w ⟨s', Function.update w.progs i (k r)⟩
  | start {w : Crew S σ ι} {i : ι} {p : Prog S Unit} : w.progs i = .ret () → T.starts i p →
      Step T C w ⟨w.state, Function.update w.progs i p⟩
  | env {w : Crew S σ ι} {s' : σ} : T.env w.state s' → Step T C w ⟨s', w.progs⟩

/-- Any number of steps. -/
abbrev Steps (T : Threads S σ ι) (C : Proviso S σ ι) : Crew S σ ι → Crew S σ ι → Prop :=
  Relation.ReflTransGen (Step T C)

end

/-! ### Proofs of each party by itself -/

variable {T : Threads S σ ι} {C : Proviso S σ ι} {R : ι → σ → σ → Prop} {J : σ → Prop}
  {I : ι → σ → S.Cmd → Prop}

/-- The world of one party: after each answer the others have done what it relies on. -/
def Threads.among (T : Threads S σ ι) (C : Proviso S σ ι) (R : ι → σ → σ → Prop) (J : σ → Prop)
    (i : ι) : World S σ :=
  ⟨fun s c r s' => C i s c r ∧ ∃ s₁, T.act i s c r s₁ ∧ R i s₁ s' ∧ J s'⟩

/-- The obligations under which the parties' proofs fit together. -/
structure Discipline (T : Threads S σ ι) (C : Proviso S σ ι) (R : ι → σ → σ → Prop) (J : σ → Prop)
    (I : ι → σ → S.Cmd → Prop) : Prop where
  refl : ∀ i s, R i s s
  trans : ∀ i s₁ s₂ s₃, R i s₁ s₂ → R i s₂ s₃ → R i s₁ s₃
  inv : ∀ i s c r s', J s → C i s c r → I i s c → T.act i s c r s' → J s'
  others : ∀ i j s c r s', j ≠ i → J s → C i s c r → I i s c → T.act i s c r s' → R j s s'
  env : ∀ s s', J s → T.env s s' → J s' ∧ ∀ i, R i s s'
  starts : ∀ i p s, T.starts i p → J s → wp (T.among C R J i) (I i) p (fun _ _ => True) s

/-- Between two steps: the invariant, and each party's proof of what it has left, whatever it relies
on comes first. -/
structure Orderly (T : Threads S σ ι) (C : Proviso S σ ι) (R : ι → σ → σ → Prop) (J : σ → Prop)
    (I : ι → σ → S.Cmd → Prop) (w : Crew S σ ι) : Prop where
  inv : J w.state
  progs : ∀ i s', R i w.state s' → J s' →
    wp (T.among C R J i) (I i) (w.progs i) (fun _ _ => True) s'

theorem orderly_idle {s : σ} (h : J s) : Orderly T C R J I (.idle s) :=
  ⟨h, fun _ _ _ _ => trivial⟩

variable [DecidableEq ι] {w w' : Crew S σ ι}

namespace Discipline

/-- **The step lemma (proved).** -/
theorem step (h : Discipline T C R J I) (hw : Orderly T C R J I w) (hs : Step T C w w') :
    Orderly T C R J I w' ∧ (w'.state = w.state ∨ T.env w.state w'.state ∨
      ∃ i c r, C i w.state c r ∧ I i w.state c ∧ T.act i w.state c r w'.state) := by
  cases hs with
  | @act i c k r s' hp hC ha =>
    have hprog := hw.progs i w.state (h.refl i _) hw.inv
    rw [hp] at hprog
    obtain ⟨hI, hnext⟩ := hprog
    have hinv := h.inv i _ c r s' hw.inv hC hI ha
    refine ⟨⟨hinv, fun j s'' hR hJ => ?_⟩, .inr (.inr ⟨i, c, r, hC, hI, ha⟩)⟩
    show wp _ _ (Function.update w.progs i (k r) j) _ _
    by_cases hj : j = i
    · subst hj
      rw [Function.update_self]
      exact hnext r s'' ⟨hC, s', ha, hR, hJ⟩
    · rw [Function.update_of_ne hj]
      exact hw.progs j s'' (h.trans j _ _ _ (h.others i j _ c r s' hj hw.inv hC hI ha) hR) hJ
  | @start i p hp hstart =>
    refine ⟨⟨hw.inv, fun j s'' hR hJ => ?_⟩, .inl rfl⟩
    show wp _ _ (Function.update w.progs i p j) _ _
    by_cases hj : j = i
    · subst hj
      rw [Function.update_self]
      exact h.starts j p s'' hstart hJ
    · rw [Function.update_of_ne hj]
      exact hw.progs j s'' hR hJ
  | @env s' he =>
    obtain ⟨hinv, hrely⟩ := h.env _ s' hw.inv he
    exact ⟨⟨hinv, fun j s'' hR hJ => hw.progs j s'' (h.trans j _ _ _ (hrely j) hR) hJ⟩,
      .inr (.inl he)⟩

/-- **The run lemma (proved).** -/
theorem steps (h : Discipline T C R J I) (hw : Orderly T C R J I w) (hs : Steps T C w w') :
    Orderly T C R J I w' := by
  induction hs with
  | refl => exact hw
  | tail _ hstep ih => exact (h.step ih hstep).1

/-- **What no step undoes, no run undoes (proved).** -/
theorem mono {M : σ → σ → Prop} (h : Discipline T C R J I) (hrefl : ∀ s, M s s)
    (htrans : ∀ s₁ s₂ s₃, M s₁ s₂ → M s₂ s₃ → M s₁ s₃)
    (hact : ∀ i s c r s', J s → C i s c r → I i s c → T.act i s c r s' → M s s')
    (henv : ∀ s s', J s → T.env s s' → M s s') (hw : Orderly T C R J I w) (hs : Steps T C w w') :
    M w.state w'.state := by
  induction hs with
  | refl => exact hrefl _
  | @tail w₁ w₂ hs hstep ih =>
    have horderly := h.steps hw hs
    refine htrans _ _ _ ih ?_
    rcases (h.step horderly hstep).2 with heq | he | ⟨i, c, r, hC, hI, ha⟩
    · rw [heq]
      exact hrefl _
    · exact henv _ _ horderly.inv he
    · exact hact i _ c r _ horderly.inv hC hI ha

end Discipline

/-! ### One interleaving, computed -/

/-- One move of an interleaving: a party starts a program, a party has up to `n` commands answered,
or the environment changes the state, if it can. -/
inductive Move (S : Sig) (σ ι : Type) where
  | start : ι → Prog S Unit → Move S σ ι
  | turn : ι → ℕ → Move S σ ι
  | env : (σ → Option σ) → Move S σ ι

/-- The move is one the parties may make. -/
def Move.Legal (T : Threads S σ ι) : Move S σ ι → Prop
  | .start i p => T.starts i p
  | .turn _ _ => True
  | .env f => ∀ s s', f s = some s' → T.env s s'

section Play

variable (h : ι → σ → (c : S.Cmd) → S.Ans c × σ) (ok : ι → σ → (c : S.Cmd) → S.Ans c → Bool)

/-- Up to `n` commands of a party's program, as long as each is `ok`. -/
def advance (i : ι) : ℕ → σ → Prog S Unit → σ × Prog S Unit
  | 0, s, p => (s, p)
  | _ + 1, s, .ret u => (s, .ret u)
  | n + 1, s, .call c k =>
    if ok i s c (h i s c).1 then advance i n (h i s c).2 (k (h i s c).1) else (s, .call c k)

def playMove (w : Crew S σ ι) : Move S σ ι → Crew S σ ι
  | .start i p =>
    match w.progs i with
    | .ret () => ⟨w.state, Function.update w.progs i p⟩
    | .call _ _ => w
  | .turn i n =>
    let (s, p) := advance h ok i n w.state (w.progs i)
    ⟨s, Function.update w.progs i p⟩
  | .env f => (f w.state).elim w fun s => ⟨s, w.progs⟩

def play (w : Crew S σ ι) (moves : List (Move S σ ι)) : Crew S σ ι := moves.foldl (playMove h ok) w

variable {h ok}

theorem steps_advance (hh : ∀ i s c, T.act i s c (h i s c).1 (h i s c).2)
    (hok : ∀ i s c r, ok i s c r = true → C i s c r) (i : ι) (n : ℕ) (w : Crew S σ ι) :
    Steps T C w ⟨(advance h ok i n w.state (w.progs i)).1,
      Function.update w.progs i (advance h ok i n w.state (w.progs i)).2⟩ := by
  have hstay : Steps T C w ⟨w.state, Function.update w.progs i (w.progs i)⟩ := by
    rw [Function.update_eq_self]
  induction n generalizing w with
  | zero => exact hstay
  | succ n ih =>
    cases hp : w.progs i with
    | ret u =>
      rw [hp] at hstay
      exact hstay
    | call c k =>
      rw [advance]
      split_ifs with hc
      · -- the first command, and the rest from where it leads
        have hfirst := Step.act hp (hok i w.state c _ hc) (hh i w.state c)
        have hrest := ih ⟨(h i w.state c).2, Function.update w.progs i (k (h i w.state c).1)⟩
          (by rw [Function.update_eq_self])
        dsimp only at hrest
        rw [Function.update_self, Function.update_idem] at hrest
        exact .head hfirst hrest
      · rw [hp] at hstay
        exact hstay

/-- **A computed interleaving is one of the interleavings (proved).** -/
theorem steps_play (hh : ∀ i s c, T.act i s c (h i s c).1 (h i s c).2)
    (hok : ∀ i s c r, ok i s c r = true → C i s c r) {moves : List (Move S σ ι)}
    (hlegal : ∀ m ∈ moves, m.Legal T) (w : Crew S σ ι) : Steps T C w (play h ok w moves) := by
  induction moves generalizing w with
  | nil => exact .refl
  | cons m moves ih =>
    have hmove : Steps T C w (playMove h ok w m) := by
      have hm := hlegal m (by simp)
      cases m with
      | start i p =>
        rw [playMove]
        split
        · rename_i hp
          exact .single (.start hp hm)
        · exact .refl
      | turn i n => exact steps_advance hh hok i n w
      | env f =>
        rw [playMove]
        cases hf : f w.state with
        | none => exact .refl
        | some s => exact .single (.env (hm w.state s hf))
    exact hmove.trans (ih (fun m' hm' => hlegal m' (by simp [hm'])) _)

end Play

end Programs
