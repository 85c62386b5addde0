import PveCompose.Lib.Program

/-!
# Programs side by side

Several parties each run one program to its end over a shared state, a command at a time and in any
order.

* `Interleaved` — such a run, with its trace: every event and whose it is;
* `yields_own` — what is a party's own in the trace is a run of its program;
* `played_of_interleaved`, `played_append` — **the cut rule**: the trace alone takes the shared state
  along, and can be cut anywhere;
* `interleaved_of_own` — the other way round: such a trace is such a run;
* `own_split` — a cut of a party's own events is a cut of the trace.
-/

namespace Programs

variable {S : Sig} {α σ ι : Type}

/-- An event, and whose it is. -/
abbrev Turn (S : Sig) (ι : Type) := ι × Event S

/-- The shared state along a trace. -/
inductive Played (W : World S σ) : σ → List (Turn S ι) → σ → Prop where
  | nil {s : σ} : Played W s [] s
  | cons {s s₁ s' : σ} {i : ι} {c : S.Cmd} {r : S.Ans c} {tr : List (Turn S ι)} :
      W.reply s c r s₁ → Played W s₁ tr s' → Played W s ((i, ⟨c, r⟩) :: tr) s'

section

variable [DecidableEq ι]

/-- The parties' programs from a shared state on, and what is left of them. -/
inductive Interleaved (W : World S σ) :
    σ → (ι → Prog S α) → List (Turn S ι) → σ → (ι → Prog S α) → Prop where
  | refl {s : σ} {ps : ι → Prog S α} : Interleaved W s ps [] s ps
  | turn {s s₁ s' : σ} {ps ps' : ι → Prog S α} {i : ι} {c : S.Cmd} {k : S.Ans c → Prog S α}
      {r : S.Ans c} {tr : List (Turn S ι)} : ps i = .call c k → W.reply s c r s₁ →
      Interleaved W s₁ (Function.update ps i (k r)) tr s' ps' →
      Interleaved W s ps ((i, ⟨c, r⟩) :: tr) s' ps'

/-- The events of one party. -/
def own (i : ι) (tr : List (Turn S ι)) : List (Event S) :=
  tr.filterMap fun t => if t.1 = i then some t.2 else none

theorem own_self (i : ι) (e : Event S) (tr : List (Turn S ι)) : own i ((i, e) :: tr) = e :: own i tr :=
  List.filterMap_cons_some (if_pos rfl)

theorem own_other {i j : ι} (h : j ≠ i) (e : Event S) (tr : List (Turn S ι)) :
    own i ((j, e) :: tr) = own i tr := List.filterMap_cons_none (if_neg h)

theorem own_append (i : ι) (tr tr' : List (Turn S ι)) : own i (tr ++ tr') = own i tr ++ own i tr' :=
  List.filterMap_append

theorem mem_own {i : ι} {e : Event S} {tr : List (Turn S ι)} : e ∈ own i tr ↔ (i, e) ∈ tr := by
  rw [own, List.mem_filterMap]
  constructor
  · rintro ⟨⟨j, e'⟩, ht, h⟩
    split_ifs at h with hj
    obtain rfl := Option.some.inj h
    obtain rfl : j = i := hj
    exact ht
  · exact fun h => ⟨_, h, if_pos rfl⟩

/-- **A party's own events are a run of its program (proved).** -/
theorem yields_own {W : World S σ} {s s' : σ} {ps ps' : ι → Prog S α} {tr : List (Turn S ι)}
    (h : Interleaved W s ps tr s' ps') {i : ι} {a : α} (ha : ps' i = .ret a) :
    Yields (ps i) (own i tr) a := by
  induction h with
  | refl =>
    rw [ha]
    exact yields_ret.mpr ⟨rfl, rfl⟩
  | @turn s s₁ s' ps ps' j c k r tr hp hr hrest ih =>
    have hnext := ih ha
    by_cases hj : j = i
    · subst hj
      rw [Function.update_self] at hnext
      rw [own_self, hp]
      exact yields_cons.mpr hnext
    · rw [Function.update_of_ne (Ne.symm hj)] at hnext
      rw [own_other hj]
      exact hnext

theorem played_of_interleaved {W : World S σ} {s s' : σ} {ps ps' : ι → Prog S α}
    {tr : List (Turn S ι)} (h : Interleaved W s ps tr s' ps') : Played W s tr s' := by
  induction h with
  | refl => exact .nil
  | turn _ hr _ ih => exact .cons hr ih

/-- **A trace of runs is a run of all (proved)**: what each party does of it alone is a run of its
program, and the shared state goes along. -/
theorem interleaved_of_own {W : World S σ} {s s' : σ} {ps : ι → Prog S α} {tr : List (Turn S ι)}
    {a : ι → α} (h : Played W s tr s') (hown : ∀ i, Yields (ps i) (own i tr) (a i)) :
    ∃ ps', Interleaved W s ps tr s' ps' ∧ ∀ i, ps' i = .ret (a i) := by
  induction h generalizing ps with
  | nil =>
    refine ⟨ps, .refl, fun i => ?_⟩
    cases hi : ps i with
    | ret b =>
      obtain ⟨-, rfl⟩ := yields_ret.mp (hi ▸ hown i)
      rfl
    | call c k =>
      obtain ⟨_, _, hnil, -⟩ := yields_call.mp (hi ▸ hown i)
      cases hnil
  | @cons s s₁ s' i c r tr hr _ ih =>
    have hi := hown i
    rw [own_self] at hi
    cases hp : ps i with
    | ret b =>
      rw [hp] at hi
      cases (yields_ret.mp hi).1
    | call c' k =>
      rw [hp] at hi
      obtain ⟨r', tr', htr, hk⟩ := yields_call.mp hi
      cases htr
      have hnext : ∀ j, Yields (Function.update ps i (k r) j) (own j tr) (a j) := by
        intro j
        by_cases hj : j = i
        · subst hj
          rw [Function.update_self]
          exact hk
        · rw [Function.update_of_ne hj, ← own_other (Ne.symm hj) ⟨c, r⟩ tr]
          exact hown j
      obtain ⟨ps', hrest, hends⟩ := ih hnext
      exact ⟨ps', .turn hp hr hrest, hends⟩

/-- A cut of a party's own events is a cut of the trace. -/
theorem own_split {i : ι} {tr : List (Turn S ι)} {u v : List (Event S)} {e : Event S}
    (h : own i tr = u ++ e :: v) :
    ∃ before after, tr = before ++ (i, e) :: after ∧ own i before = u ∧ own i after = v := by
  obtain ⟨before, rest, rfl, hbefore, hrest⟩ := List.filterMap_eq_append_iff.mp h
  obtain ⟨skipped, ⟨j, e'⟩, after, rfl, hskipped, he, hafter⟩ := List.filterMap_eq_cons_iff.mp hrest
  split_ifs at he with hj
  obtain rfl := Option.some.inj he
  obtain rfl : j = i := hj
  refine ⟨before ++ skipped, after, by rw [List.append_assoc], ?_, hafter⟩
  have hnone : own j skipped = [] := List.filterMap_eq_nil_iff.mpr hskipped
  rw [own_append, hnone, List.append_nil]
  exact hbefore

/-- Without an event of any party there is no trace. -/
theorem eq_nil_of_own {tr : List (Turn S ι)} (h : ∀ i, own i tr = []) : tr = [] := by
  cases tr with
  | nil => rfl
  | cons t tr =>
    have hself := h t.1
    rw [show t = (t.1, t.2) from rfl, own_self] at hself
    cases hself

end

/-- **The cut rule (proved).** -/
theorem played_append {W : World S σ} {s s' : σ} {tr tr' : List (Turn S ι)} :
    Played W s (tr ++ tr') s' ↔ ∃ s₁, Played W s tr s₁ ∧ Played W s₁ tr' s' := by
  induction tr generalizing s with
  | nil =>
    constructor
    · exact fun h => ⟨s, .nil, h⟩
    · rintro ⟨s₁, ⟨⟩, h⟩
      exact h
  | cons t tr ih =>
    constructor
    · rintro (_ | ⟨hr, h⟩)
      obtain ⟨s₁, h₁, h₂⟩ := ih.mp h
      exact ⟨s₁, .cons hr h₁, h₂⟩
    · rintro ⟨s₁, _ | ⟨hr, h₁⟩, h₂⟩
      exact .cons hr (ih.mpr ⟨s₁, h₁, h₂⟩)

theorem played_cons {W : World S σ} {s s' : σ} {i : ι} {c : S.Cmd} {r : S.Ans c}
    {tr : List (Turn S ι)} :
    Played W s ((i, ⟨c, r⟩) :: tr) s' ↔ ∃ s₁, W.reply s c r s₁ ∧ Played W s₁ tr s' := by
  constructor
  · rintro ⟨⟩
    exact ⟨_, by assumption, by assumption⟩
  · rintro ⟨s₁, hr, h⟩
    exact .cons hr h

/-- What every event of a trace keeps. -/
theorem Played.keeps {W : World S σ} {P : σ → Prop} {s s' : σ} {tr : List (Turn S ι)}
    (h : Played W s tr s') (hs : P s)
    (hstep : ∀ t ∈ tr, ∀ s₁ s₂, P s₁ → W.reply s₁ t.2.1 t.2.2 s₂ → P s₂) : P s' := by
  induction h with
  | nil => exact hs
  | cons hr _ ih =>
    exact ih (hstep _ List.mem_cons_self _ _ hs hr) fun t ht => hstep t (List.mem_cons_of_mem _ ht)

end Programs
