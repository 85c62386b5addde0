import PveCompose.Node

/-!
# One guest of a pass, and attempts that do not fail (`ops/daemon.rs`)

A visit of the loop is taken apart in any world: what it reads, whether it goes on to an attempt, and
how that attempt ends.  That no attempt fails is said of a trace.

* `NoneFails` — no attempt of the trace, made for a document read right before, ends in an error;
  `noneFails_of_noneFailing` decides it by running the attempts along the trace;
* `visiting_of_run` — **PROVED**: what a visit in which no attempt fails comes to;
* `turn_keeps` — **the run lemma**: what every visit keeps, a turn keeps;
* `wp_runLoop` — **the rule of the loop**: a run is proved attempt by attempt;
* `Attends.attempt` — **PROVED**: what an attempt that ends well keeps and leaves, in any world.
-/

namespace PveCompose

open Programs

variable {σ : Type} {W : World sig σ} {s s' : σ} {x : External} {ctx : Ctx} {memo memo' : Memo}
  {tr : List (Event sig)}

/-- In this trace no attempt for a document that was read ends in an error. -/
def NoneFails (x : External) (ctx : Ctx) (tr : List (Event sig)) : Prop :=
  ∀ before v (a : Result Output) read part after e,
    tr = before ++ ⟨.metaGet v, a⟩ :: (part ++ after) →
    (a >>= readOutput x v) = .ok (some read) → ¬ Yields (attempt x ctx v read).run part (.error e)

theorem NoneFails.within {tr tr' : List (Event sig)} (h : NoneFails x ctx tr) (hsub : tr' <:+: tr) :
    NoneFails x ctx tr' := by
  obtain ⟨l, r, rfl⟩ := hsub
  rintro before v a read part after e rfl
  exact h (l ++ before) v a read part (after ++ r) e (by simp)

/-- `NoneFails`, computed: every attempt is run along what follows the read it is made for. -/
def noneFailing (x : External) (ctx : Ctx) : List (Event sig) → Bool
  | [] => true
  | ⟨.metaGet v, a⟩ :: tr =>
    (match a >>= readOutput x v with
      | .ok (some read) => ((attempt x ctx v read).run.replay tr).all fun r => r.1.isOk
      | _ => true) && noneFailing x ctx tr
  | _ :: tr => noneFailing x ctx tr

theorem noneFailing_of_cons {e : Event sig} (h : noneFailing x ctx (e :: tr) = true) :
    noneFailing x ctx tr = true := by
  obtain ⟨c, r⟩ := e
  cases c with
  | metaGet v => exact (Bool.and_eq_true_iff.mp h).2
  | _ => exact h

theorem noneFails_of_noneFailing (h : noneFailing x ctx tr = true) : NoneFails x ctx tr := by
  rintro before v a read part after e rfl ha hy
  induction before with
  | nil =>
    have hreplay := replay_of_yields hy after
    rw [List.nil_append, noneFailing, ha] at h
    simp only [hreplay] at h
    simp [Except.isOk, Except.toBool] at h
  | cons e' before ih => exact ih (noneFailing_of_cons h)

/-- A guest of the pass, when no attempt fails: it is passed by before its document is read or after,
or attempted. -/
inductive Visiting (W : World sig σ) (x : External) (ctx : Ctx) (memo : Memo) (g : Listed)
    (tr : List (Event sig)) (s : σ) : Memo → σ → Prop where
  | skipped : ¬ g.Reached ctx → Visiting W x ctx memo g tr s memo s
  | passed {a : Result Output} {s₁ s₂ : σ} : ⟨.metaGet g.vmid, a⟩ ∈ tr →
      W.reply s (.metaGet g.vmid) a s₁ →
      (∀ read, (a >>= readOutput x g.vmid) = .ok (some read) →
        Assoc.get? g.vmid memo = some read.digest) →
      (s₂ = s₁ ∨ ∃ msg, W.reply s₁ (.report msg) () s₂) → Visiting W x ctx memo g tr s memo s₂
  | attempted {out : Output} {read : Read} {s₁ s₂ s₃ : σ} {part : List (Event sig)} :
      W.reply s (.metaGet g.vmid) (.ok out) s₁ → readOutput x g.vmid out = .ok (some read) →
      Assoc.get? g.vmid memo ≠ some read.digest →
      Run W s₁ (attempt x ctx g.vmid read).run part (.ok ()) s₂ →
      W.reply s₂ (.notify "WATCHDOG=1\n") () s₃ →
      Visiting W x ctx memo g tr s (Assoc.set g.vmid read.digest memo) s₃

/-- **One guest (proved).** -/
theorem visiting_of_run {g : Listed} (h : Run W s (visit x ctx memo g) tr memo' s')
    (hfails : NoneFails x ctx tr) : Visiting W x ctx memo g tr s memo' s' := by
  unfold visit at h
  split_ifs at h with hskip
  · obtain ⟨rfl, rfl, rfl⟩ := run_pure.mp h
    refine .skipped fun hreached => ?_
    obtain ⟨ht, hrun, hsel⟩ := hreached
    exact absurd hskip (by simp [ht, hrun, hsel])
  obtain ⟨tr₁, a, s₁, tr₂, rfl, hread, hrest⟩ := run_seq.mp h
  obtain ⟨r, tr', s₂, rfl, hreply, hret⟩ := run_call.mp hread
  obtain ⟨rfl, rfl, rfl⟩ := run_ret.mp hret
  dsimp only at hrest
  generalize ha : (r >>= readOutput x g.vmid) = a at hrest
  have hmem : ∀ {tr}, (⟨.metaGet g.vmid, r⟩ : Event sig) ∈ [⟨.metaGet g.vmid, r⟩] ++ tr :=
    List.mem_cons_self
  cases a with
  | error e =>
    obtain ⟨_, u, s₂, _, rfl, hsay, hend⟩ := run_seq.mp hrest
    obtain ⟨-, hsaid⟩ := run_ask.mp hsay
    obtain ⟨rfl, rfl, rfl⟩ := run_pure.mp hend
    exact .passed hmem hreply (fun read hr => by cases ha.symm.trans hr) (.inr ⟨_, hsaid⟩)
  | ok found =>
    cases found with
    | none =>
      obtain ⟨rfl, rfl, rfl⟩ := run_pure.mp hrest
      exact .passed hmem hreply (fun read hr => by cases ha.symm.trans hr) (.inl rfl)
    | some read =>
      obtain ⟨out, rfl, hout⟩ := bind_eq_ok.mp ha
      dsimp only at hrest
      split_ifs at hrest with hmemo
      · obtain ⟨rfl, rfl, rfl⟩ := run_pure.mp hrest
        refine .passed hmem hreply (fun read' hr => ?_) (.inl rfl)
        obtain rfl : read = read' := Option.some.inj (Except.ok.inj (ha.symm.trans hr))
        exact hmemo
      · obtain ⟨part, ra, s₂, after, rfl, hatt, hend⟩ := run_seq.mp hrest
        cases ra with
        | error e =>
          exact absurd (yields_of_run hatt) (hfails [] g.vmid (.ok out) read part after e rfl ha)
        | ok u =>
          obtain ⟨_, u, s₃, _, rfl, hdog, hset⟩ := run_seq.mp hend
          obtain ⟨-, hdog⟩ := run_ask.mp hdog
          obtain ⟨rfl, rfl, rfl⟩ := run_pure.mp hset
          exact .attempted hreply hout hmemo hatt hdog

/-! ### A turn in any world -/

/-- The commands that are not about one guest. -/
def Cmd.Idle : Cmd → Prop
  | .version | .loadConfig | .now | .sleep _ | .notify _ | .report _ | .list _ => True
  | _ => False

section Turn

variable {H : Memo → σ → Prop} {l : LoopCtx} {st st' : LoopState} {ls : List Listed}

theorem visitAll_keeps
    (hvisit : ∀ {m s g tr m' s'}, H m s → Run W s (visit x ctx m g) tr m' s' →
      NoneFails x ctx tr → H m' s')
    (h : H memo s) (hrun : Run W s (visitAll x ctx memo ls) tr memo' s')
    (hfails : NoneFails x ctx tr) : H memo' s' := by
  induction ls generalizing memo s tr with
  | nil =>
    obtain ⟨rfl, rfl, rfl⟩ := run_pure.mp hrun
    exact h
  | cons g ls ih =>
    obtain ⟨tr₁, memo₁, s₁, tr₂, rfl, hfirst, hrest⟩ := run_seq.mp hrun
    have h₁ := hvisit h hfirst (hfails.within (List.prefix_append tr₁ tr₂).isInfix)
    exact ih h₁ hrest (hfails.within (List.suffix_append tr₁ tr₂).isInfix)

theorem idle_keeps {α : Type} {p : Prog sig α} {a : α} {P : σ → Prop}
    (hidle : ∀ {s c r s'}, c.Idle → P s → W.reply s c r s' → P s') (honly : Only Cmd.Idle p)
    (h : P s) (hrun : Run W s p tr a s') : P s' := by
  have hkept : wp W (fun _ _ => True) p (fun _ => P) s :=
    wp_only honly (fun s c r s' hc hs hr => hidle hc hs hr) (fun _ _ _ _ => trivial) h
  exact wp_run (Q := fun _ => P) hkept hrun

theorem idle_say (msg : Text) : Only Cmd.Idle (say msg) := ⟨trivial, fun _ => trivial⟩

theorem idle_ask {c : Cmd} (h : c.Idle) : Only Cmd.Idle (Prog.ask (S := sig) c) :=
  ⟨h, fun _ => trivial⟩

variable (hidle : ∀ {m s c r s'}, c.Idle → H m s → W.reply s c r s' → H m s')

include hidle in
theorem passTurn_keeps {token : Text}
    (hvisit : ∀ {m s g tr m' s'}, H m s → Run W s (visit x (l.ctx st.config) m g) tr m' s' →
      NoneFails x (l.ctx st.config) tr → H m' s')
    (h : H st.memo s) (hrun : Run W s (passTurn x l st token) tr st' s')
    (hfails : NoneFails x (l.ctx st'.config) tr) : H st'.memo s' := by
  have hidle' : ∀ {m s c r s'}, c.Idle → H m s → W.reply s c r s' → H m s' := hidle
  obtain ⟨part, ⟨r, m⟩, s₁, rest, rfl, hpass, hsaid⟩ := run_seq.mp hrun
  obtain ⟨tr₁, a, s₂, tr₂, rfl, hlist, hwalk⟩ := run_seq.mp hpass
  have h₂ := idle_keeps (hidle' (m := st.memo)) (idle_ask (c := .list _) trivial) h hlist
  have h₁ : NoneFails x (l.ctx st.config) tr₂ → H m s₁ := by
    intro hfails₂
    cases a with
    | error e =>
      obtain ⟨rfl, hend, rfl⟩ := run_pure.mp hwalk
      cases hend
      exact h₂
    | ok ls =>
      obtain ⟨tr₃, m', s₃, tr₄, rfl, hall, hend⟩ := run_seq.mp hwalk
      obtain ⟨rfl, heq, rfl⟩ := run_pure.mp hend
      cases heq
      exact visitAll_keeps hvisit h₂ hall (hfails₂.within ⟨[], [], by simp⟩)
  have hinfix : tr₂ <:+: tr₁ ++ tr₂ ++ rest := ⟨tr₁, rest, by simp⟩
  dsimp only at hsaid
  cases r with
  | error e =>
    obtain ⟨tr₅, u, s₃, _, rfl, hsay, hend⟩ := run_seq.mp hsaid
    obtain ⟨rfl, rfl, rfl⟩ := run_pure.mp hend
    exact idle_keeps (hidle' (m := m)) (idle_say _) (h₁ (hfails.within hinfix)) hsay
  | ok u =>
    obtain ⟨rfl, rfl, rfl⟩ := run_pure.mp hsaid
    exact h₁ (hfails.within hinfix)

include hidle in
theorem reload_keeps {file : FileRead} (hforget : ∀ {m s}, H m s → H [] s) (h : H st.memo s)
    (hrun : Run W s (reload x st file) tr st' s') : H st'.memo s' := by
  have hsaid : ∀ {msg tr u s'}, Run W s (say msg) tr u s' → H st.memo s' :=
    idle_keeps (P := H st.memo) hidle (idle_say _) h
  unfold reload at hrun
  split at hrun
  · split_ifs at hrun
    · obtain ⟨_, u, s₁, _, rfl, hsay, hend⟩ := run_seq.mp hrun
      obtain ⟨rfl, rfl, rfl⟩ := run_pure.mp hend
      exact hforget (hsaid hsay)
    · obtain ⟨rfl, rfl, rfl⟩ := run_pure.mp hrun
      exact h
  · obtain ⟨_, u, s₁, _, rfl, hsay, hend⟩ := run_seq.mp hrun
    obtain ⟨rfl, rfl, rfl⟩ := run_pure.mp hend
    exact hsaid hsay

include hidle in
theorem startFull_keeps {full : Bool} (hforget : ∀ {m s}, H m s → H [] s) (h : H st.memo s)
    (hrun : Run W s (startFull st full) tr st' s') : H st'.memo s' := by
  unfold startFull at hrun
  split_ifs at hrun
  · obtain ⟨_, t, s₁, _, rfl, hnow, hend⟩ := run_seq.mp hrun
    obtain ⟨rfl, rfl, rfl⟩ := run_pure.mp hend
    exact hforget (idle_keeps (P := H st.memo) hidle (idle_ask (c := .now) trivial) h hnow)
  · obtain ⟨rfl, rfl, rfl⟩ := run_pure.mp hrun
    exact h

include hidle in
/-- **What a visit, a command about no guest and a memo that is dropped keep, a turn keeps (proved).** -/
theorem turn_keeps (hforget : ∀ {m s}, H m s → H [] s)
    (hvisit : ∀ {ctx m s g tr m' s'}, H m s → Run W s (visit x ctx m g) tr m' s' →
      NoneFails x ctx tr → H m' s')
    (h : H st.memo s) (hrun : Run W s (iteration x l st) tr st' s')
    (hfails : NoneFails x (l.ctx st'.config) tr) : H st'.memo s' := by
  have hask : ∀ {c : Cmd} {m s tr r s'}, c.Idle → H m s → Run W s (Prog.ask (S := sig) c) tr r s' →
      H m s' := fun {c m s tr r s'} hc => idle_keeps (P := H m) hidle (idle_ask hc)
  obtain ⟨tr₁, u, s₁, rest₁, rfl, hdog, hrun₁⟩ := run_seq.mp hrun
  have h₁ := hask (c := .notify _) trivial h hdog
  obtain ⟨tr₂, r, s₂, rest₂, rfl, hpoll, hrun₂⟩ := run_seq.mp hrun₁
  have h₂ := hask (c := .version) trivial h₁ hpoll
  cases r with
  | error e =>
    obtain ⟨_, _, s₃, _, -, hsay, hrun₃⟩ := run_seq.mp hrun₂
    obtain ⟨_, _, s₄, _, -, hsleep, hend⟩ := run_seq.mp hrun₃
    obtain ⟨-, rfl, rfl⟩ := run_pure.mp hend
    exact hask (c := .sleep _) trivial (idle_keeps (P := H st'.memo) hidle (idle_say _) h₂ hsay) hsleep
  | ok answer =>
    obtain ⟨tr₃, now, s₃, rest₃, rfl, hnow, hrun₃⟩ := run_seq.mp hrun₂
    have h₃ := hask (c := .now) trivial h₂ hnow
    obtain ⟨tr₄, file, s₄, rest₄, rfl, hload, hrun₄⟩ := run_seq.mp hrun₃
    have h₄ := hask (c := .loadConfig) trivial h₃ hload
    obtain ⟨tr₅, st₁, s₅, rest₅, rfl, hreload, hrun₅⟩ := run_seq.mp hrun₄
    have h₅ := reload_keeps (H := H) hidle hforget h₄ hreload
    dsimp only at hrun₅
    split_ifs at hrun₅ with hdue
    · obtain ⟨tr₆, st₂, s₆, rest₆, rfl, hfull, hrun₆⟩ := run_seq.mp hrun₅
      have h₆ := startFull_keeps (H := H) hidle hforget h₅ hfull
      obtain ⟨tr₇, st₃, s₇, rest₇, rfl, hpass, hrun₇⟩ := run_seq.mp hrun₆
      obtain ⟨tr₈, _, s₈, _, rfl, hsleep, hend⟩ := run_seq.mp hrun₇
      obtain ⟨rfl, rfl, rfl⟩ := run_pure.mp hend
      have hinfix : tr₇ <:+: tr₁ ++ (tr₂ ++ (tr₃ ++ (tr₄ ++ (tr₅ ++ (tr₆ ++ (tr₇ ++ tr₈)))))) :=
        ⟨tr₁ ++ tr₂ ++ tr₃ ++ tr₄ ++ tr₅ ++ tr₆, tr₈, by simp⟩
      have h₇ := passTurn_keeps (H := H) hidle hvisit h₆ hpass (hfails.within (by simpa using hinfix))
      exact hask (c := .sleep _) trivial h₇ hsleep
    · obtain ⟨_, st₂, s₆, _, rfl, hpure, hrun₆⟩ := run_seq.mp hrun₅
      obtain ⟨rfl, rfl, rfl⟩ := run_pure.mp hpure
      obtain ⟨_, _, s₇, _, rfl, hsleep, hend⟩ := run_seq.mp hrun₆
      obtain ⟨rfl, rfl, rfl⟩ := run_pure.mp hend
      exact hask (c := .sleep _) trivial h₅ hsleep

end Turn

/-! ### The loop, command by command -/

section Loop

variable {I : σ → Cmd → Prop} {l : LoopCtx} {st : LoopState} {ls : List Listed}
  (hidle : ∀ s c, c.Idle → I s c) (hread : ∀ s v, I s (.metaGet v))

include hidle in
theorem wp_idle {α : Type} {p : Prog sig α} (h : Only Cmd.Idle p) : wp W I p (fun _ _ => True) s :=
  wp_only h (fun _ _ _ _ _ _ _ => trivial) (fun s c hc _ => hidle s c hc) trivial

section Pass

variable (hattempt : ∀ {v out read s s'}, W.reply s (.metaGet v) (.ok out) s' →
  readOutput x v out = .ok (some read) → wp W I (attempt x ctx v read).run (fun _ _ => True) s')

include hidle hread hattempt

theorem wp_visit {g : Listed} : wp W I (visit x ctx memo g) (fun _ _ => True) s := by
  have hsay : ∀ {msg s}, wp W I (say msg) (fun _ _ => True) s := wp_idle hidle (idle_say _)
  unfold visit
  split_ifs
  · trivial
  · rw [wp_seq]
    refine ⟨hread s g.vmid, fun r s₁ hr => ?_⟩
    dsimp only
    cases ha : (r >>= readOutput x g.vmid) with
    | error e =>
      exact (wp_seq _ _ _ _).mpr (wp_mono hsay fun _ _ _ => trivial)
    | ok found =>
      cases found with
      | none => trivial
      | some read =>
        obtain ⟨out, rfl, hout⟩ := bind_eq_ok.mp ha
        rw [wp_ret]
        dsimp only
        split_ifs
        · trivial
        · rw [wp_seq]
          refine wp_mono (hattempt hr hout) fun r s₂ _ => ?_
          have hset : ∀ s, wp W I (do
              watchdog
              pure (Assoc.set g.vmid read.digest memo)) (fun _ _ => True) s := fun s =>
            (wp_seq _ _ _ _).mpr (wp_mono (wp_idle hidle (p := watchdog) ⟨trivial, fun _ => trivial⟩)
              fun _ _ _ => trivial)
          cases r with
          | error e => exact (wp_seq _ _ _ _).mpr (wp_mono hsay fun _ s _ => hset s)
          | ok u => exact hset s₂

theorem wp_visitAll : wp W I (visitAll x ctx memo ls) (fun _ _ => True) s := by
  induction ls generalizing memo s with
  | nil => trivial
  | cons g ls ih =>
    exact (wp_seq _ _ _ _).mpr (wp_mono (wp_visit hidle hread hattempt) fun _ _ _ => ih)

/-- **The rule of a pass (proved)**: it is proved attempt by attempt. -/
theorem wp_pass : wp W I (pass x ctx memo) (fun _ _ => True) s := by
  refine (wp_seq _ _ _ _).mpr ⟨hidle s _ trivial, fun a s₁ _ => ?_⟩
  cases a with
  | error e => trivial
  | ok ls =>
    exact (wp_seq _ _ _ _).mpr (wp_mono (wp_visitAll hidle hread hattempt) fun _ _ _ => trivial)

end Pass

variable (hattempt : ∀ {ctx v out read s s'}, W.reply s (.metaGet v) (.ok out) s' →
  readOutput x v out = .ok (some read) → wp W I (attempt x ctx v read).run (fun _ _ => True) s')

include hidle hread hattempt

theorem wp_passTurn {token : Text} : wp W I (passTurn x l st token) (fun _ _ => True) s := by
  rw [passTurn, wp_seq]
  refine wp_mono (wp_pass hidle hread hattempt) fun r s₁ _ => ?_
  obtain ⟨r, memo⟩ := r
  cases r with
  | error e =>
    exact (wp_seq _ _ _ _).mpr (wp_mono (wp_idle hidle (idle_say _)) fun _ _ _ => trivial)
  | ok u => trivial

theorem wp_iteration : wp W I (iteration x l st) (fun _ _ => True) s := by
  have hask : ∀ {c : Cmd} {s : σ}, c.Idle →
      wp W I (Prog.ask (S := sig) c) (fun _ _ => True) s := fun hc => wp_idle hidle (idle_ask hc)
  have hsleep : ∀ {s : σ} {st : LoopState}, wp W I (do
      Prog.ask (S := sig) (.sleep l.interval)
      pure st) (fun _ _ => True) s := fun {s st} =>
    (wp_seq _ _ _ _).mpr (wp_mono (hask trivial) fun _ _ _ => trivial)
  refine (wp_seq _ _ _ _).mpr (wp_mono (hask (c := .notify _) trivial) fun _ s₁ _ => ?_)
  refine (wp_seq _ _ _ _).mpr (wp_mono (hask trivial) fun r s₂ _ => ?_)
  cases r with
  | error e =>
    exact (wp_seq _ _ _ _).mpr (wp_mono (wp_idle hidle (idle_say _)) fun _ _ _ => hsleep)
  | ok answer =>
    refine (wp_seq _ _ _ _).mpr (wp_mono (hask trivial) fun now s₃ _ => ?_)
    refine (wp_seq _ _ _ _).mpr (wp_mono (hask trivial) fun file s₄ _ => ?_)
    have hreload : Only Cmd.Idle (reload x st file) := by
      unfold reload
      split
      · split_ifs
        · exact only_bindProg (idle_say _) fun _ => trivial
        · trivial
      · exact only_bindProg (idle_say _) fun _ => trivial
    refine (wp_seq _ _ _ _).mpr (wp_mono (wp_idle hidle hreload) fun st₁ s₅ _ => ?_)
    dsimp only
    split_ifs
    · have hfull : Only Cmd.Idle (startFull st₁ (fullDue l st now)) := by
        unfold startFull
        split_ifs
        · exact only_bindProg (idle_ask trivial) fun _ => trivial
        · trivial
      refine (wp_seq _ _ _ _).mpr (wp_mono (wp_idle hidle hfull) fun st₂ s₆ _ => ?_)
      exact (wp_seq _ _ _ _).mpr (wp_mono (wp_passTurn hidle hread hattempt) fun _ _ _ => hsleep)
    · exact (wp_seq _ _ _ _).mpr ((wp_retProg _ _ _).mpr hsleep)

end Loop

/-! ### An attempt in any world -/

/-- The commands of an attempt between its lock and its unlock, the facts apart. -/
inductive Cmd.OfHalf (vmid : ℕ) : Cmd → Prop where
  | plain {c : Cmd} : c.Plain → Cmd.OfHalf vmid c
  | pct (op : Op) (call : Call) : Cmd.OfHalf vmid (.pct vmid op call)
  | compose (text : Text) : Cmd.OfHalf vmid (.writeCompose vmid text)
  | up : Cmd.OfHalf vmid (.up vmid)

/-- What a world keeps along an attempt on the guest `vmid`: `P` at every command, and `N` once the
facts name the digest. -/
structure Attends (W : World sig σ) (vmid : ℕ) (digest : Text) (P N : σ → Prop) : Prop where
  half : ∀ {s c r s'}, Cmd.OfHalf vmid c → P s → W.reply s c r s' → P s'
  keeps : ∀ {s c r s'}, Cmd.OfHalf vmid c → P s → N s → W.reply s c r s' → N s'
  named : ∀ {s a s'}, P s → W.reply s (.readFacts vmid) (.ok a) s' → a.any (·.digest = digest) →
    N s'
  written : ∀ {s f r s'}, f.digest = digest → P s → W.reply s (.writeFacts vmid f) r s' →
    P s' ∧ (r = .ok () → N s')

section

variable {vmid : ℕ} {digest text : Text} {P N : σ → Prop} {host : Option Text} {g : Guest}

theorem Attends.plain (h : Attends W vmid digest P N) (s : σ) (c : Cmd) (r : c.Answer) (s' : σ)
    (hc : c.Plain) (hs : P s) (hr : W.reply s c r s') : P s' :=
  h.half (.plain hc) hs hr

theorem Cmd.OfPct.ofHalf {c : Cmd} (h : c.OfPct vmid) : c.OfHalf vmid := by
  rcases h with h | ⟨op, call, rfl⟩
  · exact .plain h
  · exact .pct op call

/-- The docker half of an attempt that is made. -/
theorem Attends.docker (h : Attends W vmid digest P N) {o : Options} (hvmid : g.vmid = vmid)
    (hdigest : g.read.digest = digest) (hs : P s) :
    wp W (fun _ _ => True) (dockerApplyGuest x ctx g o).run
      (Ends (fun _ s => P s ∧ N s) fun _ => P) s := by
  have hkeep : ∀ {α β : Type} {p : M α} {f : α → M β} {Q : β → σ → Prop} {s : σ},
      Only (Cmd.OfHalf vmid) p.run → P s →
      (∀ a s, P s → wp W (fun _ _ => True) (f a).run (Ends Q fun _ => P) s) →
      wp W (fun _ _ => True) (p >>= f).run (Ends Q fun _ => P) s := by
    intro α β p f Q s honly hs hf
    refine wp_bind_inv (P := P) ?_ hf fun _ _ hs => hs
    exact wp_only honly (fun s c r s' hc hs hr => h.half hc hs hr) (fun _ _ _ _ => trivial) hs
  have hplain : ∀ {α : Type} {p : Prog sig α}, Only Cmd.Plain p → Only (Cmd.OfHalf vmid) p :=
    fun honly => only_mono honly fun _ => .plain
  rw [dockerApplyGuest]
  refine hkeep (hplain (plain_ensureDocker _)) hs fun _ s₁ hs₁ => ?_
  refine hkeep (hplain (plain_ensureLayout _ _)) hs₁ fun _ s₂ hs₂ => ?_
  refine hkeep (only_ofExcept _) hs₂ fun rendered s₃ hs₃ => ?_
  refine hkeep (hplain (only_issue trivial _)) hs₃ fun current s₄ hs₄ => ?_
  refine hkeep (hplain (plain_wantsStart _ _ _)) hs₄ fun start s₅ hs₅ => ?_
  refine hkeep ?_ hs₅ fun _ s₆ hs₆ => ?_
  · unfold putCompose
    split_ifs
    · exact only_bind (hplain (plain_report _)) fun _ => only_issue (hvmid ▸ .compose _) _
    · exact only_pure _
  refine hkeep (only_mono (only_startStack g o start) ?_) hs₆ fun _ s₇ hs₇ => ?_
  · rintro c (hc | rfl)
    · exact .plain hc
    · exact hvmid ▸ .up
  refine hkeep (hplain (only_issue trivial _)) hs₇ fun previous s₈ hs₈ => ?_
  rw [factsNow, wp_bind, wp_bind, wp_issue]
  refine ⟨trivial, fun appliedAt s₉ hs₉ => ?_⟩
  have hs₉' := h.half (.plain (c := .wallClock) trivial) hs₈ hs₉
  rw [ends_ok, wp_pure, wp_bind, wp_issue]
  refine ⟨trivial, fun r s' hr => ?_⟩
  obtain ⟨hs', hn⟩ := h.written (f := ⟨g.read.digest, _, _, _⟩) hdigest hs₉' (hvmid ▸ hr)
  cases r with
  | error e => exact hs'
  | ok u => exact ⟨hs', hn rfl⟩

/-- The pct half of an attempt: the guest stays one loaded for the document. -/
theorem Attends.pct (h : Attends W vmid digest P N) (hvmid : g.vmid = vmid)
    (hg : LoadedFrom x ctx g.config.hostname vmid text g) (hs : P s) :
    wp W (fun _ _ => True) (pctHalf ctx g).run
      (Ends (fun g' s => P s ∧ LoadedFrom x ctx g'.config.hostname vmid text g') fun _ => P) s := by
  unfold pctHalf
  split_ifs
  · refine wp_bind_inv (P := P) ?_ (fun n s₁ hs₁ => ?_) fun _ _ hs => hs
    · refine wp_only (only_pctApplyGuest ctx g) (fun s c r s' hc hs hr => ?_) (fun _ _ _ _ => trivial) hs
      exact h.half (hvmid ▸ hc.ofHalf) hs hr
    · split_ifs
      · refine wp_bind_inv (P := P) ?_ (fun _ s₂ hs₂ => ?_) fun _ _ hs => hs
        · exact wp_only (plain_report _) (h.plain) (fun _ _ _ _ => trivial) hs₁
        · exact wp_refreshConfig_any hg h.plain (fun _ _ _ _ => trivial) hs₂
      · exact ⟨hs₁, hg⟩
  · exact ⟨hs, hg⟩

/-- **An attempt that ends well (proved)**: at its unlock, the facts name the document if its docker
policy is `auto`. -/
theorem Attends.attempt {read : Read} {out : Output} {Q : σ → Prop}
    (h : Attends W vmid read.digest P N) (hd : Decoded x vmid out read)
    (hlock : ∀ s', W.reply s (.lock vmid 60) (.ok ()) s' → P s')
    (hunlock : ∀ s s', P s → (read.doc.policy.docker = .auto → N s) →
      W.reply s (.unlock vmid) () s' → Q s') :
    wp W (fun _ _ => True) (attempt x ctx vmid read).run (Ends (fun _ => Q) fun _ _ => True) s := by
  rw [PveCompose.attempt, withLock, wp_bind, wp_issue]
  refine ⟨trivial, fun r s₁ hr => ?_⟩
  cases r with
  | error e => trivial
  | ok u =>
    show wp W _ (Fallible.run _) _ _
    rw [wp_bind, wp_attempt]
    have hbody : wp W (fun _ _ => True) (do
        let g ← loadWith ctx read
        let g ← pctHalf ctx g
        dockerHalf x ctx g : M Unit).run
        (Ends (fun _ s => P s ∧ (read.doc.policy.docker = .auto → N s)) fun _ => P) s₁ := by
      rw [wp_bind]
      refine wp_ends_mono (wp_loadWith_any hd h.plain (fun _ _ _ _ => trivial) (hlock s₁ hr)) ?_
        fun _ _ hs => hs
      rintro g s₂ ⟨hs₂, -, hg⟩
      rw [wp_bind]
      refine wp_ends_mono (h.pct hg.vmid hg hs₂) ?_ fun _ _ hs => hs
      rintro g' s₃ ⟨hs₃, hg'⟩
      have hvmid : g'.vmid = vmid := hg'.vmid
      have hdigest : g'.read.digest = read.digest := hg'.digest.trans hd.digest.symm
      have hdoc : g'.read.doc = read.doc := Except.ok.inj (hg'.doc.symm.trans hd.doc)
      rw [dockerHalf, wp_bind, wp_issue, hvmid]
      refine ⟨trivial, fun r s₄ hr => ?_⟩
      have hs₄ := h.half (.plain (c := .readFacts vmid) trivial) hs₃ hr
      cases r with
      | error e => exact hs₄
      | ok facts =>
        dsimp only [id, ends_ok]
        split_ifs with happly
        · rw [wp_bind]
          refine wp_ends_mono (h.docker hvmid hdigest hs₄) ?_ fun _ _ hs => hs
          rintro started s₅ ⟨hs₅, hn⟩
          refine ⟨trivial, fun _ s₆ hr => ?_⟩
          exact ⟨h.half (.plain (c := .report _) trivial) hs₅ hr,
            fun _ => h.keeps (.plain (c := .report _) trivial) hs₅ hn hr⟩
        · refine ⟨hs₄, fun hauto => h.named hs₃ hr ?_⟩
          rw [hdoc, hdigest] at happly
          simpa [hauto] using happly
    refine wp_mono hbody fun r s₂ hs₂ => ?_
    rw [wp_bind, wp_issue]
    refine ⟨trivial, fun u s₃ hr => ?_⟩
    cases r with
    | error e => trivial
    | ok u => exact hunlock s₂ s₃ hs₂.1 hs₂.2 hr

end

end PveCompose
