import PveCompose.Lib.Program

/-!
# Programs cut short

A program may be killed: what it did up to then stays, what it would have done does not happen.  A
command in progress counts as done or not done, by the replies its world gives it; one that may be
left half done has a reply that says so.

* `Cut` — the states a program may be cut in, its end among them;
* `wp_cut` — **PROVED**: what holds whenever a command is issued and at every end, holds in every
  state the program may be cut in.
-/

namespace Programs

variable {S : Sig} {α σ : Type} {W : World S σ}

/-- The program may be killed in the state `s'`. -/
inductive Cut (W : World S σ) : σ → Prog S α → σ → Prop where
  | here {s : σ} {p : Prog S α} : Cut W s p s
  | later {s s₁ s' : σ} {c : S.Cmd} {k : S.Ans c → Prog S α} {r : S.Ans c} :
      W.reply s c r s₁ → Cut W s₁ (k r) s' → Cut W s (.call c k) s'

/-- **The rule for programs that are cut (proved).** -/
theorem wp_cut {p : Prog S α} {P : σ → Prop} {s s' : σ} (h : wp W (fun s _ => P s) p (fun _ => P) s)
    (hc : Cut W s p s') : P s' := by
  induction hc with
  | @here s p =>
    cases p with
    | ret a => exact h
    | call c k => exact h.1
  | later hr _ ih => exact ih (h.2 _ _ hr)

end Programs
