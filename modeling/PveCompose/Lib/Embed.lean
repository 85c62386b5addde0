import PveCompose.Lib.Program

/-!
# Programs over a larger signature

A program that issues the commands of one signature is a program over any signature that has them:
each command is issued as the larger one spells it, and goes on with what its answer says.

* `Embedding` — how the commands of one signature are spelled in another;
* `wp_embed` — **the rule of an embedded program**: what every spelled command keeps, it keeps;
* `yields_embed` — its runs are the runs of the program, each command spelled;
* `wp_embed_of` — **the simulation rule**: what holds in the world of the smaller signature holds in
  any world of the larger one that simulates it.
-/

namespace Programs

/-- The commands of `S` among those of `T`. -/
structure Embedding (S T : Sig) where
  cmd : S.Cmd → T.Cmd
  answer : ∀ c, T.Ans (cmd c) → S.Ans c

variable {S T : Sig} {α ε ε' σ : Type}

namespace Prog

/-- The same program, its commands spelled in `T`. -/
def embed (e : Embedding S T) : Prog S α → Prog T α
  | .ret a => .ret a
  | .call c k => .call (e.cmd c) fun r => embed e (k (e.answer c r))

end Prog

/-- The same program that may fail, with its errors spelled otherwise. -/
def Fallible.embed (e : Embedding S T) (f : ε → ε') (p : Fallible S ε α) : Fallible T ε' α :=
  ⟨Prog.bind (p.run.embed e) fun r => .ret (r.mapError f)⟩

variable {W : World T σ} {I : σ → T.Cmd → Prop} {J : σ → Prop} {e : Embedding S T}

/-- **What the spelled commands keep, the program keeps.** -/
theorem wp_embed (hI : ∀ s c, J s → I s (e.cmd c))
    (hJ : ∀ s c r s', J s → W.reply s (e.cmd c) r s' → J s') (p : Prog S α) {s : σ} (hs : J s) :
    wp W I (p.embed e) (fun _ => J) s := by
  induction p generalizing s with
  | ret a => exact hs
  | call c k ih => exact ⟨hI s c hs, fun r s' hr => ih _ (hJ s c r s' hs hr)⟩

/-- Its errors are those of the embedded program. -/
theorem wp_embedFallible {f : ε → ε'} {E : ε' → σ → Prop} (hI : ∀ s c, J s → I s (e.cmd c))
    (hJ : ∀ s c r s', J s → W.reply s (e.cmd c) r s' → J s') (hE : ∀ x s, J s → E (f x) s)
    (p : Fallible S ε α) {s : σ} (hs : J s) :
    wp W I (p.embed e f).run (Ends (fun _ => J) E) s := by
  show wp W I (Prog.bind _ _) _ s
  rw [wp_bindProg]
  refine wp_mono (wp_embed hI hJ p.run hs) fun r s' hs' => ?_
  cases r with
  | ok a => exact hs'
  | error x => exact hE x s' hs'

/-- An embedded program issues the spellings of what it issues. -/
theorem only_embed {K : T.Cmd → Prop} {p : Prog S α} (h : Only (fun c => K (e.cmd c)) p) :
    Only K (p.embed e) := by
  induction p with
  | ret a => trivial
  | call c k ih => exact ⟨h.1, fun r => ih _ (h.2 _)⟩

/-- What is issued spells what the program issues. -/
def Embedding.Spells (e : Embedding S T) (here : Event T) (there : Event S) : Prop :=
  ∃ r, here = ⟨e.cmd there.1, r⟩ ∧ there.2 = e.answer there.1 r

/-- **A run of an embedded program is a run of the program**, spelled. -/
theorem yields_embed {p : Prog S α} {tr : List (Event T)} {a : α} (h : Yields (p.embed e) tr a) :
    ∃ tr₀, Yields p tr₀ a ∧ List.Forall₂ e.Spells tr tr₀ := by
  induction p generalizing tr with
  | ret b =>
    obtain ⟨rfl, rfl⟩ := yields_ret.mp h
    exact ⟨[], .ret, .nil⟩
  | call c k ih =>
    obtain ⟨r, tr', rfl, hrest⟩ := yields_call.mp h
    obtain ⟨tr₀, hy, hall⟩ := ih _ hrest
    exact ⟨⟨c, e.answer c r⟩ :: tr₀, .call trivial hy, .cons ⟨r, rfl, rfl⟩ hall⟩

/-- **The simulation rule.**  Where every answer of the larger world is one the smaller world gives in
a related state, what is proved of the program there, and of what it issues, holds of it here. -/
theorem wp_embed_of {τ : Type} {V : World S τ} {K : τ → S.Cmd → Prop} {R : τ → σ → Prop}
    (hI : ∀ t s c, R t s → K t c → I s (e.cmd c))
    (hR : ∀ t s c r s', R t s → W.reply s (e.cmd c) r s' → ∃ t', V.reply t c (e.answer c r) t' ∧ R t' s')
    {p : Prog S α} {Q : α → τ → Prop} {t : τ} {s : σ} (h : wp V K p Q t) (hs : R t s) :
    wp W I (p.embed e) (fun a s' => ∃ t', R t' s' ∧ Q a t') s := by
  induction p generalizing t s with
  | ret a => exact ⟨t, hs, h⟩
  | call c k ih =>
    refine ⟨hI t s c hs h.1, fun r s' hr => ?_⟩
    obtain ⟨t', ht', hs'⟩ := hR t s c r s' hs hr
    exact ih _ (h.2 _ t' ht') hs'

end Programs
