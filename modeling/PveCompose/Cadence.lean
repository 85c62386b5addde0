import PveCompose.Reload

/-!
# When the next full pass comes (`ops/daemon.rs`)

The loop against a clock that runs: every command may take time, and a sleep takes what it was asked
for.

* `clockWorld` — the outside with its clock; every poll of the store is answered;
* `turn_full_or_late` — **one turn**: it makes a full pass, or it leaves the time of the last one as it
  is and lets an interval go by, and none was due;
* `full_pass_due` — **PROVED**: however many turns have gone by, the next few contain a full pass,
  which plans every running selected guest that has a document, whatever is remembered.
-/

namespace PveCompose

open Programs

/-- What an answer says of the time, in nanoseconds, before and after it. -/
def Tick (s : ℤ) : (c : Cmd) → c.Answer → ℤ → Prop
  | .now, t, s' => s ≤ s' ∧ t = s'
  | .sleep secs, _, s' => s + secs * 10 ^ 9 ≤ s'
  | .version, r, s' => s ≤ s' ∧ r.isOk = true
  | _, _, s' => s ≤ s'

def clockWorld : World sig ℤ := ⟨Tick⟩

/-- Somewhere in the trace a pass is made with nothing remembered: it covers what its list answers. -/
def FullPass (x : External) (l : LoopCtx) (tr : List (Event sig)) : Prop :=
  ∃ config part r, part <:+: tr ∧ Yields (pass x (l.ctx config) []) part r ∧
    ∃ a : Result (List Listed), ⟨.list l.node, a⟩ ∈ part ∧
      ∀ ls, a = .ok ls → Covers x (l.ctx config) ls part

section

variable {x : External} {l : LoopCtx} {st st' : LoopState} {s s' : ℤ} {tr tr' : List (Event sig)}

theorem FullPass.within (h : FullPass x l tr) (hsub : tr <:+: tr') : FullPass x l tr' := by
  obtain ⟨config, part, r, hin, hrest⟩ := h
  exact ⟨config, part, r, hin.trans hsub, hrest⟩

/-- **Time only goes on.** -/
theorem le_of_run {α : Type} {p : Prog sig α} {a : α} (h : Run clockWorld s p tr a s') : s ≤ s' := by
  induction h with
  | ret => exact le_rfl
  | @call s s₁ s₂ c k r tr a hr _ ih =>
    refine le_trans ?_ ih
    cases c with
    | now => exact hr.1
    | version => exact hr.1
    | sleep secs =>
      have hle : s + secs * 10 ^ 9 ≤ s₁ := hr
      omega
    | _ => exact hr

/-- The config is re-read, and the clock of the last full pass is not touched. -/
theorem lastFull_of_reload {file : FileRead} (h : Run clockWorld s (reload x st file) tr st' s') :
    st'.lastFull = st.lastFull := by
  unfold reload at h
  split at h
  · split_ifs at h
    · obtain ⟨_, _, _, _, -, -, hend⟩ := run_seq.mp h
      obtain ⟨-, rfl, -⟩ := run_pure.mp hend
      rfl
    · obtain ⟨-, rfl, -⟩ := run_pure.mp h
      rfl
  · obtain ⟨_, _, _, _, -, -, hend⟩ := run_seq.mp h
    obtain ⟨-, rfl, -⟩ := run_pure.mp hend
    rfl

theorem lastFull_of_passTurn {token : Text} (h : Run clockWorld s (passTurn x l st token) tr st' s') :
    st'.lastFull = st.lastFull := by
  obtain ⟨_, ⟨r, memo⟩, _, _, -, -, hsaid⟩ := run_seq.mp h
  dsimp only at hsaid
  cases r with
  | error e =>
    obtain ⟨_, _, _, _, -, -, hend⟩ := run_seq.mp hsaid
    obtain ⟨-, rfl, -⟩ := run_pure.mp hend
    rfl
  | ok u =>
    obtain ⟨-, rfl, -⟩ := run_pure.mp hsaid
    rfl

/-- A pass that starts with nothing remembered is a full one. -/
theorem fullPass_of_passTurn {token : Text} (hmemo : st.memo = [])
    (h : Run clockWorld s (passTurn x l st token) tr st' s') : FullPass x l tr := by
  obtain ⟨part, r, s₁, rest, rfl, hpass, -⟩ := run_seq.mp h
  rw [hmemo] at hpass
  have hy := yields_of_run hpass
  obtain ⟨a, tail, hpart, hcovers⟩ := covers_of_pass hy
  refine ⟨st.config, part, r, (List.prefix_append _ _).isInfix, hy, a, ?_, hcovers⟩
  rw [hpart]
  exact List.mem_cons_self

/-- What a turn comes to that makes no full pass. -/
structure Late (l : LoopCtx) (st : LoopState) (s : ℤ) (st' : LoopState) (s' : ℤ) : Prop where
  lastFull : st'.lastFull = st.lastFull
  notDue : s - st.lastFull < l.fullEvery * 10 ^ 9
  slept : s + l.interval * 10 ^ 9 ≤ s'

/-- **One turn (proved).** -/
theorem turn_full_or_late (h : Run clockWorld s (iteration x l st) tr st' s') (hs : st.lastFull ≤ s) :
    st'.lastFull ≤ s' ∧ (FullPass x l tr ∨ Late l st s st' s') := by
  obtain ⟨tr₁, _, s₁, rest₁, rfl, hdog, h⟩ := run_seq.mp h
  have h₁ := le_of_run hdog
  obtain ⟨tr₂, r, s₂, rest₂, rfl, hpoll, h⟩ := run_seq.mp h
  have h₂ := le_of_run hpoll
  cases r with
  | error e =>
    obtain ⟨-, -, hok⟩ := run_ask.mp hpoll
    cases hok
  | ok answer =>
    obtain ⟨tr₃, now, s₃, rest₃, rfl, hnow, h⟩ := run_seq.mp h
    obtain ⟨-, hle₃, hnow₃⟩ := run_ask.mp hnow
    obtain ⟨tr₄, file, s₄, rest₄, rfl, hload, h⟩ := run_seq.mp h
    have h₄ := le_of_run hload
    obtain ⟨tr₅, st₁, s₅, rest₅, rfl, hreload, h⟩ := run_seq.mp h
    have h₅ := le_of_run hreload
    have hlast := lastFull_of_reload hreload
    have hsleep : ∀ {st₂ s₆ tr}, Run clockWorld s₆ (do
        Prog.ask (S := sig) (.sleep l.interval)
        pure st₂) tr st' s' → st' = st₂ ∧ s₆ + l.interval * 10 ^ 9 ≤ s' := by
      intro st₂ s₆ tr h
      obtain ⟨_, _, s₇, _, -, hslept, hend⟩ := run_seq.mp h
      obtain ⟨-, rfl, rfl⟩ := run_pure.mp hend
      exact ⟨rfl, (run_ask.mp hslept).2⟩
    dsimp only at h
    by_cases hdue : fullDue l st now = true
    · -- a full pass is due: it is made in this turn, and its time is taken now
      rw [if_pos (.inr hdue)] at h
      obtain ⟨tr₆, st₂, s₆, rest₆, rfl, hfull, h⟩ := run_seq.mp h
      rw [hdue, startFull, if_pos rfl] at hfull
      obtain ⟨tr₈, t, s₇, _, rfl, ht, hend⟩ := run_seq.mp hfull
      obtain ⟨rfl, rfl, rfl⟩ := run_pure.mp hend
      obtain ⟨-, -, rfl⟩ := run_ask.mp ht
      obtain ⟨tr₇, st₃, s₇, rest₇, rfl, hpass, h⟩ := run_seq.mp h
      obtain ⟨rfl, hslept⟩ := hsleep h
      have h₇ := le_of_run hpass
      refine ⟨?_, .inl ((fullPass_of_passTurn rfl hpass).within ?_)⟩
      · rw [lastFull_of_passTurn hpass]
        show t ≤ s'
        omega
      · exact ⟨tr₁ ++ tr₂ ++ tr₃ ++ tr₄ ++ tr₅ ++ tr₈, rest₇, by simp⟩
    · have hnot : s₃ - st.lastFull < l.fullEvery * 10 ^ 9 := by
        rw [fullDue, decide_eq_true_eq, not_le, hnow₃] at hdue
        exact hdue
      have hlate : ∀ {st₂ : LoopState} {s₆ : ℤ} {tr : List (Event sig)},
          st₂.lastFull = st.lastFull → s₅ ≤ s₆ → (st' = st₂ ∧ s₆ + l.interval * 10 ^ 9 ≤ s') →
            st'.lastFull ≤ s' ∧ (FullPass x l tr ∨ Late l st s st' s') := by
        rintro st₂ s₆ tr hsame hle ⟨rfl, hslept⟩
        refine ⟨by rw [hsame]; omega, .inr ⟨hsame, by omega, by omega⟩⟩
      rw [Bool.not_eq_true] at hdue
      split_ifs at h with htoken
      · obtain ⟨tr₆, st₂, s₆, rest₆, rfl, hfull, h⟩ := run_seq.mp h
        obtain ⟨tr₇, st₃, s₇, rest₇, rfl, hpass, hend⟩ := run_seq.mp h
        rw [hdue, startFull, if_neg Bool.false_ne_true] at hfull
        obtain ⟨-, rfl, rfl⟩ := run_pure.mp hfull
        exact hlate ((lastFull_of_passTurn hpass).trans hlast) (le_of_run hpass) (hsleep hend)
      · obtain ⟨_, st₂, s₆, rest₆, rfl, hpure, h⟩ := run_seq.mp h
        obtain ⟨rfl, rfl, rfl⟩ := run_pure.mp hpure
        exact hlate hlast le_rfl (hsleep h)

/-- The clock of the last full pass is never ahead. -/
theorem lastFull_of_turns {n : ℕ} (h : Run clockWorld s (turns x l n st) tr st' s')
    (hs : st.lastFull ≤ s) : st'.lastFull ≤ s' := by
  induction n generalizing st s tr with
  | zero =>
    obtain ⟨-, rfl, rfl⟩ := run_pure.mp h
    exact hs
  | succ n ih =>
    obtain ⟨_, st₁, s₁, _, -, hturn, hrest⟩ := run_seq.mp h
    exact ih hrest (turn_full_or_late hturn hs).1

/-- **Turns without a full pass (proved)**: the intervals that go by before the last of them are
shorter together than the time from one full pass to the next. -/
theorem fullPass_or_early {n : ℕ} (h : Run clockWorld s (turns x l (n + 1) st) tr st' s')
    (hs : st.lastFull ≤ s) :
    FullPass x l tr ∨ s + n * l.interval * 10 ^ 9 - st.lastFull < l.fullEvery * 10 ^ 9 := by
  induction n generalizing st s tr with
  | zero =>
    obtain ⟨tr₁, st₁, s₁, tr₂, rfl, hturn, -⟩ := run_seq.mp h
    refine (turn_full_or_late hturn hs).2.imp (fun hfull => ?_) fun hlate => ?_
    · exact hfull.within (List.prefix_append _ _).isInfix
    · have hnot := hlate.notDue
      push_cast
      omega
  | succ n ih =>
    obtain ⟨tr₁, st₁, s₁, tr₂, rfl, hturn, hrest⟩ := run_seq.mp h
    obtain ⟨hs₁, hfull | hlate⟩ := turn_full_or_late hturn hs
    · exact .inl (hfull.within (List.prefix_append _ _).isInfix)
    · refine (ih hrest hs₁).imp (fun hfull => ?_) fun hearly => ?_
      · exact hfull.within (List.suffix_append _ _).isInfix
      · rw [hlate.lastFull] at hearly
        have hslept := hlate.slept
        have hsplit : ((n + 1 : ℕ) : ℤ) * l.interval * 10 ^ 9
            = n * l.interval * 10 ^ 9 + l.interval * 10 ^ 9 := by
          push_cast
          ring
        rw [hsplit]
        omega

theorem turns_add {m n : ℕ} {σ : Type} {W : World sig σ} {s s' : σ}
    (h : Run W s (turns x l (m + n) st) tr st' s') :
    ∃ before st₁ s₁ after, tr = before ++ after ∧ Run W s (turns x l m st) before st₁ s₁ ∧
      Run W s₁ (turns x l n st₁) after st' s' := by
  induction m generalizing st s tr with
  | zero =>
    rw [Nat.zero_add] at h
    exact ⟨[], st, s, tr, rfl, .ret, h⟩
  | succ m ih =>
    rw [Nat.succ_add] at h
    obtain ⟨tr₁, st₁, s₁, tr₂, rfl, hturn, hrest⟩ := run_seq.mp h
    obtain ⟨before, st₂, s₂, after, rfl, hbefore, hafter⟩ := ih hrest
    exact ⟨tr₁ ++ before, st₂, s₂, after, by simp,
      run_seq.mpr ⟨tr₁, st₁, s₁, before, rfl, hturn, hbefore⟩, hafter⟩

/-- **The next full pass (proved)**: after any number `m` of turns of the loop, as many more as fill
the time between full passes, and one, contain a full pass. -/
theorem full_pass_due {ctx : Ctx} {m n : ℕ} {r : LoopCtx × LoopState}
    (h : Run clockWorld s (runLoop x ctx (m + (n + 1))) tr r s')
    (hn : max ctx.config.daemon.fullEvery 60 ≤ n * max ctx.config.daemon.interval 5) :
    ∃ before after, tr = before ++ after ∧
      (∃ r s₁, Run clockWorld s (runLoop x ctx m) before r s₁) ∧ FullPass x r.1 after := by
  obtain ⟨tr₀, ⟨l, st⟩, s₀, rest, rfl, hstart, h⟩ := run_seq.mp h
  obtain ⟨tr₁, st', s₁, tr₂, rfl, hturns, hend⟩ := run_seq.mp h
  obtain ⟨rfl, rfl, rfl⟩ := run_pure.mp hend
  obtain ⟨before, st₁, s₁, after, rfl, hbefore, hafter⟩ := turns_add hturns
  obtain ⟨hinterval, hevery, hlast⟩ : l.interval = max ctx.config.daemon.interval 5 ∧
      l.fullEvery = max ctx.config.daemon.fullEvery 60 ∧ st.lastFull ≤ s₀ := by
    obtain ⟨_, t, s₂, _, -, hnow, hstart⟩ := run_seq.mp hstart
    obtain ⟨-, -, rfl⟩ := run_ask.mp hnow
    obtain ⟨_, _, s₃, _, -, hsaid, hstart⟩ := run_seq.mp hstart
    obtain ⟨_, _, s₄, _, -, hready, hstart⟩ := run_seq.mp hstart
    obtain ⟨-, heq, rfl⟩ := run_pure.mp hstart
    obtain ⟨rfl, rfl⟩ := Prod.mk.inj heq
    have hle₃ := le_of_run hsaid
    have hle₄ := le_of_run hready
    refine ⟨rfl, rfl, ?_⟩
    show t - _ ≤ s₀
    omega
  refine ⟨tr₀ ++ before, after, by simp, ⟨_, s₁, run_seq.mpr ⟨tr₀, (l, st), s₀, before, rfl, hstart,
    run_seq.mpr ⟨before, st₁, s₁, [], by simp, hbefore, .ret⟩⟩⟩, ?_⟩
  refine (fullPass_or_early hafter (lastFull_of_turns hbefore hlast)).resolve_right fun hearly => ?_
  have hle := lastFull_of_turns hbefore hlast
  have hfill : (l.fullEvery : ℤ) * 10 ^ 9 ≤ n * l.interval * 10 ^ 9 := by
    rw [← hinterval, ← hevery] at hn
    exact mul_le_mul_of_nonneg_right (by exact_mod_cast hn) (by norm_num)
  omega

end

/-! ### A clock that only sleeping moves -/

def tickAnswer (s : ℤ) : (c : Cmd) → c.Answer × ℤ
  | .version => (.ok (some "1"), s)
  | .loadConfig => (.notFound, s)
  | .now => (s, s)
  | .sleep secs => ((), s + secs * 10 ^ 9)
  | .wallClock => ([], s)
  | .notify _ | .report _ | .unlock _ => ((), s)
  | .list _ => (.ok [webListed], s)
  | .metaGet _ => (.ok (storeOutput none), s)
  | .lock _ _ | .dockerInstall _ | .pct _ _ _ | .writeCompose _ _ | .pull _ | .up _
  | .writeFacts _ _ => (.ok (), s)
  | .status _ _ => (.ok .running, s)
  | .config _ _ => (.ok (some webConf), s)
  | .dockerInfo _ => (.ok 0, s)
  | .exec _ _ => (.ok ⟨0, [], []⟩, s)
  | .ps _ => (.ok [], s)
  | .readCompose _ => (.ok none, s)
  | .readFacts _ => (.ok none, s)

theorem tick_answers (s : ℤ) (c : Cmd) : clockWorld.reply s c (tickAnswer s c).1 (tickAnswer s c).2 := by
  cases c with
  | now => exact ⟨le_rfl, rfl⟩
  | version => exact ⟨le_rfl, rfl⟩
  | _ => exact Int.le_refl _

/-- Five turns of the loop are over, and of the 21 that follow one makes a full pass. -/
theorem full_pass_due_ticking : ∃ before after,
    (runLoop webExternal webCtx 26).trace tickAnswer 0 = before ++ after ∧
      FullPass webExternal ⟨webCtx.node, webCtx.tag, 30, 600⟩ after := by
  have hrun := run_trace tick_answers (runLoop webExternal webCtx (5 + (20 + 1))) 0
  obtain ⟨before, after, htr, -, hfull⟩ := full_pass_due hrun (by decide)
  exact ⟨before, after, htr, hfull⟩

end PveCompose
