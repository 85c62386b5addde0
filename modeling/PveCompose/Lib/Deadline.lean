import PveCompose.Lib.Program

/-!
# Waiting up to a deadline

A loop that looks, and goes on looking, with a pause between two looks, until a look finds something or
the clock has passed a deadline.  A look comes before the first glance at the clock, so what is there at
once is found whatever the limit.

* `Patience` — how to look, to read the clock and to pause; `Patience.wait` — the loop, for a number of
  rounds;
* `Paced` — what the three do to the clock, and what is known after so many looks;
* `wp_go`, `wp_wait` — **PROVED**: with rounds enough for the limit the loop is never cut, it gives up only
  past the limit and after a look, and it ends a step, a look and four lags after the limit at most.
-/

namespace Programs

variable {S : Sig} {σ γ : Type}

/-- How a loop of looks ends: by the rounds only where they were too few. -/
inductive Waited (γ : Type) where
  | found : γ → Waited γ
  | late : Waited γ
  | cut : Waited γ

/-- What a loop of looks is made of. -/
structure Patience (S : Sig) (γ : Type) where
  look : Prog S (Option γ)
  now : Prog S ℕ
  pause : Prog S Unit

namespace Patience

variable (p : Patience S γ)

/-- The rounds of the loop. -/
def go (deadline : ℕ) : ℕ → Prog S (Waited γ)
  | 0 => pure .cut
  | n + 1 => do
    match ← p.look with
    | some g => pure (.found g)
    | none =>
      let t ← p.now
      if deadline ≤ t then pure .late
      else do
        p.pause
        go deadline n

def wait (limit rounds : ℕ) : Prog S (Waited γ) := do
  let t ← p.now
  p.go (t + limit) rounds

end Patience

/-- What the parts of a loop do: `J k` is known after `k` looks, and `F k g` where the last of `k` looks
found `g`.  A look takes up to `longest`; the clock and the pause are late by `lag` at most. -/
structure Paced (W : World S σ) (I : σ → S.Cmd → Prop) (p : Patience S γ) (clock : σ → ℕ)
    (step longest lag : ℕ) (J : ℕ → σ → Prop) (F : ℕ → γ → σ → Prop) : Prop where
  look : ∀ k s, J k s → wp W I p.look (fun r s' => clock s ≤ clock s' ∧ clock s' ≤ clock s + longest ∧
    r.elim (J (k + 1) s') fun g => F (k + 1) g s') s
  now : ∀ k s, J k s → wp W I p.now (fun t s' => J k s' ∧ clock s ≤ t ∧ t ≤ clock s' ∧
    clock s' ≤ clock s + lag) s
  pause : ∀ k s, J k s → wp W I p.pause (fun _ s' => J k s' ∧ clock s + step ≤ clock s' ∧
    clock s' ≤ clock s + step + lag) s

/-- What is known at the end of a wait that began at `start`. -/
def Waited.Ended (J : ℕ → σ → Prop) (F : ℕ → γ → σ → Prop) (clock : σ → ℕ) (deadline : ℕ) :
    Waited γ → σ → Prop
  | .found g, s => ∃ k, F (k + 1) g s
  | .late, s => (∃ k, J (k + 1) s) ∧ deadline ≤ clock s
  | .cut, _ => False

section

variable {W : World S σ} {I : σ → S.Cmd → Prop} {p : Patience S γ} {clock : σ → ℕ}
  {step longest lag : ℕ} {J : ℕ → σ → Prop} {F : ℕ → γ → σ → Prop}

/-- **The rounds (proved)**: a round that does not end the loop brings the deadline nearer by a step,
and begins after it by a step and two lags at most. -/
theorem wp_go (h : Paced W I p clock step longest lag J F) {deadline n k : ℕ} {s : σ} (hs : J k s)
    (hpos : 0 < n) (hrounds : deadline ≤ clock s + step * (n - 1))
    (hbegin : clock s ≤ deadline + step + 2 * lag) :
    wp W I (p.go deadline n) (fun r s' => r.Ended J F clock deadline s' ∧
      clock s' ≤ deadline + step + longest + 3 * lag) s := by
  induction n generalizing k s with
  | zero => exact absurd hpos (lt_irrefl 0)
  | succ n ih =>
    rw [Nat.add_sub_cancel] at hrounds
    rw [Patience.go, wp_seq]
    refine wp_mono (h.look k s hs) ?_
    rintro (_ | g) s₁ ⟨hfrom, hto, hr⟩
    · refine (wp_seq _ _ _ _).mpr (wp_mono (h.now (k + 1) s₁ hr) ?_)
      rintro t s₂ ⟨h₂, hle, hge, hlag⟩
      split_ifs with hlate
      · exact ⟨⟨⟨k, h₂⟩, by omega⟩, by omega⟩
      -- the clock is before the deadline, so this was not the last round
      · obtain ⟨m, rfl⟩ : ∃ m, n = m + 1 := by
          refine Nat.exists_eq_succ_of_ne_zero ?_
          rintro rfl
          omega
        have hsteps : step * (m + 1) = step * m + step := Nat.mul_succ step m
        refine (wp_seq _ _ _ _).mpr (wp_mono (h.pause (k + 1) s₂ h₂) ?_)
        rintro _ s₃ ⟨h₃, hslept, hover⟩
        refine ih h₃ m.succ_pos ?_ (by omega)
        rw [Nat.add_sub_cancel]
        omega
    · exact ⟨⟨k, hr⟩, by omega⟩

/-- **A wait (proved).** -/
theorem wp_wait (h : Paced W I p clock step longest lag J F) {limit n : ℕ} {s : σ} (hs : J 0 s)
    (hrounds : limit ≤ step * n) :
    wp W I (p.wait limit (n + 1)) (fun r s' => r.Ended J F clock (clock s + limit) s' ∧
      clock s' ≤ clock s + limit + step + longest + 4 * lag) s := by
  refine (wp_seq _ _ _ _).mpr (wp_mono (h.now 0 s hs) ?_)
  rintro t s₁ ⟨h₁, hle, hge, hlag⟩
  have hlast : t + limit ≤ clock s₁ + step * (n + 1 - 1) := by
    rw [Nat.add_sub_cancel]
    omega
  refine wp_mono (wp_go h h₁ n.succ_pos hlast (by omega)) ?_
  rintro r s₂ ⟨hend, htime⟩
  refine ⟨?_, by omega⟩
  cases r with
  | found g => exact hend
  | late =>
    obtain ⟨hlook, hpast⟩ := hend
    exact ⟨hlook, by omega⟩
  | cut => exact hend

end

end Programs
