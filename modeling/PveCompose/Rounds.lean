import PveCompose.Lib.Monitor
import PveCompose.Session
import PveCompose.Visit

/-!
# The loop, turn after turn (`ops/daemon.rs`)

The loop against monitors of its trace, whatever the outside answers and whatever fails.

* `wp_visit_cases`, `wp_turns_inv` — the rules of one guest and of a run, with an invariant that the
  memo is part of;
* `pass_in_order` — **PROVED**: a pass reads each guest it reaches once, in the order of the list,
  and what it does to a guest it does before it reads the next one;
* `one_attempt_between_pings` — **PROVED**: between two pings of the watchdog at most one guest is
  attempted;
* `attempted_once` — **PROVED**: while the config, the guest's document and the clock give no reason,
  a guest is attempted once, however many polls there are.
-/

namespace PveCompose

open Programs

/-! ### The guest a command is about -/

def Cmd.guest : Cmd → Option ℕ
  | .metaGet v | .lock v _ | .unlock v | .status _ v | .config _ v | .pct v _ _ | .dockerInfo v
  | .dockerInstall v | .exec v _ | .ps v | .readCompose v | .writeCompose v _ | .pull v | .up v
  | .readFacts v | .writeFacts v _ => some v
  | _ => none

def Cmd.isLock : Cmd → Bool
  | .lock _ _ => true
  | _ => false

def Cmd.locks (v : ℕ) : Cmd → Bool
  | .lock w _ => w = v
  | _ => false

/-- A read of a document. -/
def Cmd.isRead : Cmd → Bool
  | .metaGet _ => true
  | _ => false

def Cmd.isPing : Cmd → Bool
  | .notify _ => true
  | _ => false

/-- The commands inside the lock of a guest: on it, or on none, and neither a lock nor a read of the
document. -/
def Cmd.Within (vmid : ℕ) (c : Cmd) : Prop := c.At vmid ∧ c.OfAttempt

theorem Cmd.Within.guest {vmid : ℕ} {c : Cmd} (h : c.Within vmid) :
    c.guest = none ∨ c.guest = some vmid := by
  obtain ⟨hat, -⟩ := h
  cases c with
  | wallClock => exact .inl rfl
  | report _ => exact .inl rfl
  | version | loadConfig | now | sleep _ | notify _ | list _ | lock _ _ | unlock _ | status _ _ =>
    exact hat.elim
  | _ => exact .inr (congrArg some hat)

instance (ctx : Ctx) (g : Listed) : Decidable (g.Reached ctx) :=
  inferInstanceAs (Decidable (_ ∧ _ ∧ _))

section

variable {x : External} {ctx : Ctx} {vmid : ℕ} {read : Read}

/-- What an attempt does inside the lock. -/
def attemptBody (x : External) (ctx : Ctx) (read : Read) : M Unit := do
  let g ← loadWith ctx read
  let g ← pctHalf ctx g
  dockerHalf x ctx g

theorem attempt_eq : attempt x ctx vmid read = withLock vmid (attemptBody x ctx read) := rfl

theorem within_attemptBody (h : read.vmid = vmid) :
    Only (Cmd.Within vmid) (attemptBody x ctx read).run := by
  refine only_and ?_ ?_
  · refine only_bind_gives (at_of_looks (looks_of_watches (watches_loadWith h))) (loadWith_gives h)
      fun g hg => ?_
    exact only_bind_gives (at_pctHalf hg.1) (pctHalf_gives hg.1) fun g hg => at_dockerHalf hg.1
  · refine only_bind (only_mono (plain_loadWith ctx read) fun _ => Cmd.Plain.ofAttempt) fun g => ?_
    exact only_bind (only_pctHalf ctx g) fun g => only_dockerHalf x ctx g

end

/-! ### One guest, and one turn, with an invariant -/

section Rules

variable {σ : Type} {W : World sig σ} {I : σ → Cmd → Prop} {x : External} {s : σ}

/-- What is said is allowed, and changes nothing. -/
def Mute (W : World sig σ) (I : σ → Cmd → Prop) : Prop :=
  ∀ s msg, I s (.report msg) ∧ ∀ r s', W.reply s (.report msg) r s' → s' = s

theorem wp_mute (hsay : Mute W I) {msg : Text} {P : σ → Prop} (h : P s) :
    wp W I (say msg) (fun _ => P) s :=
  ⟨(hsay s msg).1, fun r s' hr => by rwa [(hsay s msg).2 r s' hr]⟩

/-- **The rule of one guest (proved)**: it is skipped, or its document is read and it is passed by,
or it is attempted and remembered. -/
theorem wp_visit_cases {ctx : Ctx} {memo : Memo} {g : Listed} {Q : Memo → σ → Prop}
    (hsay : Mute W I) (hskip : ¬ g.Reached ctx → Q memo s)
    (hread : g.Reached ctx → I s (.metaGet g.vmid))
    (hpassed : ∀ a s₁, g.Reached ctx → W.reply s (.metaGet g.vmid) a s₁ →
      (∀ read, (a >>= readOutput x g.vmid) = .ok (some read) →
        Assoc.get? g.vmid memo = some read.digest) → Q memo s₁)
    (hattempt : ∀ out read s₁, g.Reached ctx → W.reply s (.metaGet g.vmid) (.ok out) s₁ →
      readOutput x g.vmid out = .ok (some read) → Assoc.get? g.vmid memo ≠ some read.digest →
      wp W I (attempt x ctx g.vmid read).run (fun _ =>
        wp W I watchdog fun _ => Q (Assoc.set g.vmid read.digest memo)) s₁) :
    wp W I (visit x ctx memo g) Q s := by
  unfold visit
  split_ifs with hnot
  · refine hskip fun hreached => ?_
    obtain ⟨ht, hrun, hsel⟩ := hreached
    exact absurd hnot (by simp [ht, hrun, hsel])
  · have hreached : g.Reached ctx := by
      simpa only [Listed.Reached, not_or, not_not] using hnot
    rw [wp_seq]
    refine ⟨hread hreached, fun a s₁ ha => ?_⟩
    dsimp only
    cases hr : (a >>= readOutput x g.vmid) with
    | error e =>
      have hq := hpassed a s₁ hreached ha fun read h => by cases hr.symm.trans h
      exact (wp_seq _ _ _ _).mpr (wp_mono (wp_mute hsay hq) fun _ _ h => h)
    | ok found =>
      cases found with
      | none => exact hpassed a s₁ hreached ha fun read h => by cases hr.symm.trans h
      | some read =>
        obtain ⟨out, rfl, hout⟩ := bind_eq_ok.mp hr
        rw [wp_ret]
        dsimp only
        split_ifs with hmemo
        · refine hpassed _ s₁ hreached ha fun read' h => ?_
          obtain rfl : read = read' := Option.some.inj (Except.ok.inj (hr.symm.trans h))
          exact hmemo
        · rw [wp_seq]
          refine wp_mono (hattempt out read s₁ hreached ha hout hmemo) fun r s₂ h₂ => ?_
          have hdog : wp W I (do
              watchdog
              pure (Assoc.set g.vmid read.digest memo)) Q s₂ :=
            (wp_seq _ _ _ _).mpr (wp_mono h₂ fun _ _ h => h)
          cases r with
          | error e => exact (wp_seq _ _ _ _).mpr (wp_mute hsay hdog)
          | ok u => exact hdog

/-- **The rule of the walk (proved).** -/
theorem wp_visitAll_cases {ctx : Ctx} {J : List Listed → Memo → σ → Prop}
    (hvisit : ∀ g rest memo s, J (g :: rest) memo s → wp W I (visit x ctx memo g) (J rest) s)
    {ls : List Listed} {memo : Memo} (h : J ls memo s) :
    wp W I (visitAll x ctx memo ls) (J []) s := by
  induction ls generalizing memo s with
  | nil => exact h
  | cons g ls ih =>
    exact (wp_seq _ _ _ _).mpr (wp_mono (hvisit g ls memo s h) fun _ _ => ih)

theorem idle_startLoop (ctx : Ctx) : Only Cmd.Idle (startLoop ctx) :=
  ⟨trivial, fun _ => ⟨trivial, fun _ => ⟨trivial, fun _ => trivial⟩⟩⟩

/-- What every part of a turn keeps: `H` holds of what the loop carries, before and after each. -/
structure Invariant (W : World sig σ) (I : σ → Cmd → Prop) (x : External) (l : LoopCtx)
    (H : LoopState → σ → Prop) : Prop where
  say : Mute W I
  idle : ∀ st s c, c.Idle → H st s → I s c ∧ ∀ r s', W.reply s c r s' → H st s'
  config : ∀ st s₀ s file c, W.reply s₀ .loadConfig file s →
    Config.load x.configFromYaml file = .ok c → c ≠ st.config → H st s →
    H { st with config := c, memo := [] } s
  full : ∀ st s₀ s₁ now s, W.reply s₀ .now now s₁ → fullDue l st now = true → H st s →
    ∀ t s', W.reply s .now t s' → H { st with memo := [], lastFull := t } s'
  token : ∀ st s token, H st s → H { st with lastToken := token } s
  visit : ∀ st s g, H st s → wp W I (PveCompose.visit x (l.ctx st.config) st.memo g)
    (fun memo => H { st with memo }) s

namespace Invariant

variable {l : LoopCtx} {H : LoopState → σ → Prop} {st : LoopState} (h : Invariant W I x l H)

include h

theorem wp_ask_idle {c : Cmd} {Q : c.Answer → σ → Prop} (hc : c.Idle) (hs : H st s)
    (hQ : ∀ r s', W.reply s c r s' → H st s' → Q r s') : wp W I (Prog.ask (S := sig) c) Q s :=
  ⟨(h.idle st s c hc hs).1, fun r s' hr => hQ r s' hr ((h.idle st s c hc hs).2 r s' hr)⟩

theorem wp_pass (hs : H st s) : wp W I (pass x (l.ctx st.config) st.memo)
    (fun r => H { st with memo := r.2 }) s := by
  refine (wp_seq _ _ _ _).mpr (h.wp_ask_idle (c := .list _) trivial hs fun a s₁ _ h₁ => ?_)
  cases a with
  | error e => exact h₁
  | ok ls =>
    refine (wp_seq _ _ _ _).mpr ?_
    refine wp_visitAll_cases (J := fun _ memo => H { st with memo }) ?_ h₁
    exact fun g rest memo s hs => h.visit { st with memo } s g hs

theorem wp_passTurn {token : Text} (hs : H st s) : wp W I (passTurn x l st token) H s := by
  refine (wp_seq _ _ _ _).mpr (wp_mono (h.wp_pass hs) fun r s₁ h₁ => ?_)
  obtain ⟨r, memo⟩ := r
  have htoken := h.token _ _ token h₁
  cases r with
  | error e => exact (wp_seq _ _ _ _).mpr (wp_mute h.say htoken)
  | ok u => exact htoken

theorem wp_reload {file : FileRead} {s₀ : σ} (hr : W.reply s₀ .loadConfig file s) (hs : H st s) :
    wp W I (reload x st file) (fun st' s' => H st' s' ∧ st'.lastFull = st.lastFull ∧
      st'.lastToken = st.lastToken) s := by
  unfold reload
  cases hl : Config.load x.configFromYaml file with
  | error e => exact (wp_seq _ _ _ _).mpr (wp_mute h.say ⟨hs, rfl, rfl⟩)
  | ok c =>
    dsimp only
    split_ifs with hne
    · exact (wp_seq _ _ _ _).mpr (wp_mute h.say ⟨h.config st s₀ s file c hr hl hne hs, rfl, rfl⟩)
    · exact ⟨hs, rfl, rfl⟩

/-- **One turn (proved).** -/
theorem wp_iteration (hs : H st s) : wp W I (iteration x l st) H s := by
  refine (wp_seq _ _ _ _).mpr (h.wp_ask_idle (c := .notify _) trivial hs fun _ s₁ _ h₁ => ?_)
  refine (wp_seq _ _ _ _).mpr (h.wp_ask_idle (c := .version) trivial h₁ fun r s₂ _ h₂ => ?_)
  cases r with
  | error e =>
    refine (wp_seq _ _ _ _).mpr (wp_mute h.say ((wp_seq _ _ _ _).mpr ?_))
    exact h.wp_ask_idle (c := .sleep _) trivial h₂ fun _ _ _ h₃ => h₃
  | ok answer =>
    refine (wp_seq _ _ _ _).mpr (h.wp_ask_idle (c := .now) trivial h₂ fun now s₃ hnow h₃ => ?_)
    refine (wp_seq _ _ _ _).mpr (h.wp_ask_idle (c := .loadConfig) trivial h₃
      fun file s₄ hfile h₄ => ?_)
    refine (wp_seq _ _ _ _).mpr (wp_mono (h.wp_reload hfile h₄) fun st₁ s₅ h₅ => ?_)
    obtain ⟨h₅, hlast, htoken⟩ := h₅
    have hsleep : ∀ {st s}, H st s → wp W I (do
        Prog.ask (S := sig) (.sleep l.interval)
        pure st) H s := fun hs =>
      (wp_seq _ _ _ _).mpr (h.wp_ask_idle (c := .sleep _) trivial hs fun _ _ _ hs' => hs')
    have hdue : fullDue l st now = fullDue l st₁ now := by
      rw [fullDue, fullDue, hlast]
    dsimp only
    split_ifs with hpass
    · refine (wp_seq _ _ _ _).mpr ?_
      have hfull : wp W I (startFull st₁ (fullDue l st now)) H s₅ := by
        unfold startFull
        split_ifs with hd
        · rw [hdue] at hd
          refine (wp_seq _ _ _ _).mpr ⟨(h.idle st₁ s₅ .now trivial h₅).1, fun t s₆ ht => ?_⟩
          exact h.full st₁ s₂ s₃ now s₅ hnow hd h₅ t s₆ ht
        · exact h₅
      refine wp_mono hfull fun st₂ s₆ h₆ => ?_
      exact (wp_seq _ _ _ _).mpr (wp_mono (h.wp_passTurn h₆) fun _ _ => hsleep)
    · exact (wp_seq _ _ _ _).mpr (hsleep h₅)

/-- **Any number of turns (proved).** -/
theorem wp_turns {n : ℕ} (hs : H st s) : wp W I (turns x l n st) H s := by
  induction n generalizing st s with
  | zero => exact hs
  | succ n ih => exact (wp_seq _ _ _ _).mpr (wp_mono (h.wp_iteration hs) fun _ _ => ih)

end Invariant

end Rules

/-! ### A pass, guest by guest -/

/-- The documents read along a trace, by guest. -/
def reads (tr : List (Event sig)) : List ℕ :=
  tr.filterMap fun e => match e.1 with
    | .metaGet v => some v
    | _ => none

/-- The guest whose document was read last, and the documents still to be read: only the next one may
be, and a command on a guest is on that one. -/
def itinerary : Monitor sig (Option ℕ × List ℕ) where
  step q c _ := match c with
    | .metaGet v => if q.2.head? = some v then some (some v, q.2.tail) else none
    | c => if c.guest = none ∨ c.guest = q.1 then some q else none

theorem itinerary_step {q : Option ℕ × List ℕ} {c : Cmd} {r : c.Answer} (h : ∀ v, c ≠ .metaGet v) :
    itinerary.step q c r = if c.guest = none ∨ c.guest = q.1 then some q else none := by
  cases c with
  | metaGet v => exact absurd rfl (h v)
  | _ => rfl

@[simp] theorem reads_nil : reads [] = [] := rfl

theorem reads_metaGet {v : ℕ} {r : Result Output} {tr : List (Event sig)} :
    reads (⟨.metaGet v, r⟩ :: tr) = v :: reads tr := rfl

theorem reads_cons_ne {e : Event sig} {tr : List (Event sig)} (h : ∀ v, e.1 ≠ .metaGet v) :
    reads (e :: tr) = reads tr := by
  obtain ⟨c, r⟩ := e
  cases c with
  | metaGet v => exact absurd rfl (h v)
  | _ => rfl

/-- Every command on a guest is on the one whose document was read last. -/
def OwnTurn (cur : Option ℕ) (tr : List (Event sig)) : Prop :=
  ∀ before e after, tr = before ++ e :: after → ∀ v, e.1.guest = some v →
    (reads (before ++ [e])).getLast?.or cur = some v

theorem ownTurn_cons {cur : Option ℕ} {e : Event sig} {tr : List (Event sig)}
    (hfirst : ∀ v, e.1.guest = some v → (reads [e]).getLast?.or cur = some v)
    (hrest : OwnTurn ((reads [e]).getLast?.or cur) tr) : OwnTurn cur (e :: tr) := by
  intro before e' after heq v hv
  cases before with
  | nil =>
    obtain ⟨rfl, -⟩ := List.cons.inj heq
    exact hfirst v hv
  | cons e₀ before =>
    obtain ⟨rfl, htr⟩ := List.cons.inj heq
    have hlast := hrest before e' after htr v hv
    have hcut : reads (e :: (before ++ [e'])) = reads [e] ++ reads (before ++ [e']) := by
      rw [reads, reads, reads, ← List.filterMap_append]
      rfl
    rw [List.cons_append, hcut, List.getLast?_append, Option.or_assoc]
    exact hlast

/-- **What the itinerary accepts (proved).** -/
theorem reads_of_itinerary {cur cur' : Option ℕ} {todo todo' : List ℕ} {tr : List (Event sig)}
    (h : itinerary.run (cur, todo) tr = some (cur', todo')) :
    todo = reads tr ++ todo' ∧ OwnTurn cur tr := by
  induction tr generalizing cur todo with
  | nil =>
    cases h
    exact ⟨rfl, fun before e after h => by simp at h⟩
  | cons e tr ih =>
    obtain ⟨q, hq, hrest⟩ := Option.bind_eq_some_iff.mp h
    by_cases hmeta : ∃ v, e.1 = .metaGet v
    · obtain ⟨c, r⟩ := e
      obtain ⟨v, rfl⟩ := hmeta
      obtain ⟨hhead, hq⟩ := Option.ite_none_right_eq_some.mp hq
      cases hq
      obtain ⟨w, rest, rfl⟩ : ∃ w rest, todo = w :: rest := by
        cases todo with
        | nil => cases hhead
        | cons w rest => exact ⟨w, rest, rfl⟩
      obtain rfl : w = v := Option.some.inj hhead
      obtain ⟨htodo, hown⟩ := ih hrest
      exact ⟨by rw [reads_metaGet, List.cons_append, ← htodo]; rfl,
        ownTurn_cons (fun _ hv => hv) hown⟩
    · have hne : ∀ v, e.1 ≠ .metaGet v := fun v hv => hmeta ⟨v, hv⟩
      rw [itinerary_step hne] at hq
      obtain ⟨hguest, hq⟩ := Option.ite_none_right_eq_some.mp hq
      cases hq
      obtain ⟨htodo, hown⟩ := ih hrest
      rw [reads_cons_ne hne]
      have hnone : (reads [e]).getLast?.or cur = cur := by rw [reads_cons_ne hne]; rfl
      refine ⟨htodo, ownTurn_cons (fun v hv => ?_) (hnone.symm ▸ hown)⟩
      rw [hnone]
      rcases hguest with hg | hg
      · cases hg.symm.trans hv
      · exact hg.symm.trans hv

/-- The command reads no document, and is on the guest or on none. -/
def Cmd.OnTurn (cur : Option ℕ) (c : Cmd) : Prop :=
  (∀ v, c ≠ .metaGet v) ∧ (c.guest = none ∨ c.guest = cur)

theorem wp_itinerary {α : Type} {p : Prog sig α} {q : Option ℕ × List ℕ}
    (h : Only (Cmd.OnTurn q.1) p) :
    wp itinerary.world itinerary.Allows p (fun _ q' => q' = q) q := by
  refine wp_only h (P := (· = q)) ?_ ?_ rfl
  · rintro s c r s' ⟨hne, hg⟩ rfl hr
    have hstep : itinerary.step s c r = some s' := hr
    rw [itinerary_step hne, if_pos hg] at hstep
    exact (Option.some.inj hstep).symm
  · rintro s c ⟨hne, hg⟩ rfl r
    rw [itinerary_step hne, if_pos hg]
    rfl

theorem Cmd.Within.ne_metaGet {vmid : ℕ} {c : Cmd} (h : c.Within vmid) (v : ℕ) : c ≠ .metaGet v := by
  rintro rfl
  exact h.2

section

variable {x : External} {ctx : Ctx} {memo memo' : Memo} {tr : List (Event sig)} {ls : List Listed}

/-- The guests of a list that a pass reaches. -/
def reachedOf (ctx : Ctx) (ls : List Listed) : List ℕ := (ls.filter (·.Reached ctx)).map Listed.vmid

theorem itinerary_mute : Mute itinerary.world itinerary.Allows :=
  fun _ _ => ⟨fun _ => rfl, fun _ _ h => (Option.some.inj h).symm⟩

theorem wp_visit_itinerary {g : Listed} {rest : List Listed} {q : Option ℕ × List ℕ}
    (hq : q.2 = reachedOf ctx (g :: rest)) :
    wp itinerary.world itinerary.Allows (visit x ctx memo g) (fun _ q' => q'.2 = reachedOf ctx rest) q := by
  obtain ⟨cur, todo⟩ := q
  obtain rfl : todo = _ := hq
  have hnext : g.Reached ctx → reachedOf ctx (g :: rest) = g.vmid :: reachedOf ctx rest := by
    intro hr
    simp [reachedOf, hr]
  have hstep : ∀ {a : Result Output} {q'}, g.Reached ctx →
      itinerary.world.reply (cur, reachedOf ctx (g :: rest)) (.metaGet g.vmid) a q' →
        q' = (some g.vmid, reachedOf ctx rest) := by
    intro a q' hr h
    rw [hnext hr] at h
    obtain ⟨-, h⟩ := Option.ite_none_right_eq_some.mp h
    exact (Option.some.inj h).symm
  refine wp_visit_cases itinerary_mute ?_ ?_ ?_ ?_
  · intro hr
    simp [reachedOf, hr]
  · intro hr a
    rw [hnext hr]
    exact Option.isSome_iff_exists.mpr ⟨_, if_pos rfl⟩
  · intro a q' hr h _
    rw [hstep hr h]
  · intro out read q' hr h hout _
    rw [hstep hr h]
    have hvmid : read.vmid = g.vmid := (decoded_of_readOutput hout).vmid
    have honly : Only (Cmd.OnTurn (some g.vmid)) (attempt x ctx g.vmid read).run :=
      only_withLock ⟨nofun, .inr rfl⟩ ⟨nofun, .inr rfl⟩ (only_mono (within_attemptBody hvmid)
        fun c hc => ⟨hc.ne_metaGet, hc.guest⟩)
    refine wp_mono (wp_itinerary (q := (some g.vmid, reachedOf ctx rest)) honly) ?_
    rintro _ _ rfl
    exact wp_mono (wp_itinerary (p := watchdog) ⟨⟨nofun, .inl rfl⟩, fun _ => trivial⟩)
      fun _ _ h => by rw [h]

/-- **A pass, guest by guest (proved)**: once its list is answered, whatever fails after that, it reads
the document of every guest it reaches exactly once, in the order of the list, and ends well; what it
does to a guest comes after the read of that guest's document and before the read of the next. -/
theorem pass_in_order {r : Result Unit} (h : Yields (pass x ctx memo) tr (r, memo')) :
    ∃ a : Result (List Listed), ∃ rest, tr = ⟨.list ctx.node, a⟩ :: rest ∧
      (∀ e, a = .error e → r = .error e ∧ rest = []) ∧
      ∀ ls, a = .ok ls → r = .ok () ∧ reads rest = reachedOf ctx ls ∧ OwnTurn none rest := by
  obtain ⟨tr₁, a, rest, rfl, hlist, hrest⟩ := yields_seq.mp h
  obtain rfl := yields_ask.mp hlist
  refine ⟨a, rest, rfl, ?_, ?_⟩
  · rintro e rfl
    obtain ⟨rfl, hr⟩ := yields_pure.mp hrest
    exact ⟨(Prod.mk.inj hr).1, rfl⟩
  · rintro ls rfl
    obtain ⟨tr₂, memo₂, tr₃, rfl, hwalk, hend⟩ := yields_seq.mp hrest
    obtain ⟨rfl, hr⟩ := yields_pure.mp hend
    have hwp : wp itinerary.world itinerary.Allows (visitAll x ctx memo ls)
        (fun _ (q : Option ℕ × List ℕ) => q.2 = reachedOf ctx []) (none, reachedOf ctx ls) :=
      wp_visitAll_cases (J := fun ls _ (q : Option ℕ × List ℕ) => q.2 = reachedOf ctx ls)
        (fun g rest memo q hq => wp_visit_itinerary hq) rfl
    obtain ⟨⟨cur, todo⟩, hrun, htodo⟩ := Monitor.accepted hwp hwalk
    obtain ⟨hreads, hown⟩ := reads_of_itinerary hrun
    obtain rfl : todo = [] := htodo
    rw [List.append_nil] at hreads ⊢
    exact ⟨(Prod.mk.inj hr).1, hreads.symm, hown⟩

end

/-! ### A node whose guests are busy -/

/-- Every poll brings another token, the first guest's document cannot be read, and the second one's
lock is held by somebody. -/
def busyAnswer (polls : ℕ) : (c : Cmd) → c.Answer × ℕ
  | .version => (.ok (some (dec polls)), polls + 1)
  | .loadConfig => (.notFound, polls)
  | .now => (0, polls)
  | .wallClock => ("2026-01-01T00:00:00+00:00".toList, polls)
  | .sleep _ | .notify _ | .report _ | .unlock _ => ((), polls)
  | .list _ => (.ok [⟨101, true, [], false⟩, ⟨103, false, [], false⟩, ⟨105, true, [], false⟩], polls)
  | .metaGet v => (if v = 105 then .ok (storeOutput (some (webText "nginx"))) else bail "killed", polls)
  | .lock _ _ => (bail "guest is busy", polls)
  | .dockerInstall _ | .pct _ _ _ | .writeCompose _ _ | .pull _ | .up _ | .writeFacts _ _ =>
    (.ok (), polls)
  | .status _ _ => (.ok .running, polls)
  | .config _ _ => (.ok (some webConf), polls)
  | .dockerInfo _ => (.ok 0, polls)
  | .exec _ _ => (.ok ⟨0, [], []⟩, polls)
  | .ps _ => (.ok [], polls)
  | .readCompose _ => (.ok none, polls)
  | .readFacts _ => (.ok none, polls)

theorem busy_yields {α : Type} (p : Prog sig α) :
    Yields p (p.trace busyAnswer 0) (p.interpret busyAnswer 0).1 :=
  yields_of_run (W := ⟨fun s c r s' => (r, s') = busyAnswer s c⟩)
    (run_trace (fun _ _ => rfl) p 0)

/-- Both guests that run are read, the one that fails among them. -/
theorem pass_in_order_busy : reads ((pass webExternal webCtx []).trace busyAnswer 0) = [101, 105] := by
  obtain ⟨a, rest, htr, -, hok⟩ := pass_in_order (r := ((pass webExternal webCtx []).interpret
    busyAnswer 0).1.1) (busy_yields (pass webExternal webCtx []))
  have ha : a = .ok [⟨101, true, [], false⟩, ⟨103, false, [], false⟩, ⟨105, true, [], false⟩] := by
    obtain ⟨hhead, -⟩ := List.cons.inj htr
    exact (eq_of_heq (Sigma.mk.inj hhead).2).symm
  obtain ⟨-, hreads, -⟩ := hok _ ha
  rw [htr, reads_cons_ne (e := ⟨.list webCtx.node, a⟩) nofun, hreads]
  decide

/-! ### The watchdog -/

/-- Whose lock was taken since the last ping: until the next one there is no other lock, and beside
the reads of documents nothing is issued on another guest. -/
def pings : Monitor sig (Option ℕ) where
  step q c _ := match c with
    | .notify _ => some none
    | .lock v _ => if q = none then some (some v) else none
    | c => if c.isRead ∨ c.guest = none ∨ c.guest = q then some q else none

/-- A stretch of commands works on one guest: beside the reads of documents. -/
structure OneGuest (part : List (Event sig)) : Prop where
  locks : part.countP (fun e => e.1.isLock) ≤ 1
  guest : ∃ v, ∀ e ∈ part, ¬ e.1.isRead → e.1.guest = none ∨ e.1.guest = some v

/-- **What the monitor accepts without a ping (proved).** -/
theorem oneGuest_of_pings {q q' : Option ℕ} {part : List (Event sig)} (h : pings.run q part = some q')
    (hquiet : ∀ e ∈ part, ¬ e.1.isPing) :
    part.countP (fun e => e.1.isLock) ≤ (if q = none then 1 else 0) ∧
      (∀ v, q = some v → q' = some v) ∧
      ∀ v, q' = none ∨ q' = some v →
        ∀ e ∈ part, ¬ e.1.isRead → e.1.guest = none ∨ e.1.guest = some v := by
  induction part generalizing q with
  | nil =>
    cases h
    exact ⟨Nat.zero_le _, fun _ h => h, fun _ _ => nofun⟩
  | cons e part ih =>
    obtain ⟨q₁, hq₁, hrest⟩ := Option.bind_eq_some_iff.mp h
    have hloud := hquiet e List.mem_cons_self
    obtain ⟨hcount, hkeep, hall⟩ := ih hrest fun e he => hquiet e (List.mem_cons_of_mem _ he)
    obtain ⟨c, r⟩ := e
    have hplain : ∀ {c : Cmd} {r : c.Answer}, c.isLock = false →
        (if c.isRead ∨ c.guest = none ∨ c.guest = q then some q else none) = some q₁ →
        (⟨c, r⟩ :: part : List (Event sig)).countP (fun e => e.1.isLock) ≤ (if q = none then 1 else 0) ∧
          (∀ v, q = some v → q' = some v) ∧ ∀ v, q' = none ∨ q' = some v →
            ∀ e ∈ (⟨c, r⟩ :: part : List (Event sig)),
              ¬ e.1.isRead → e.1.guest = none ∨ e.1.guest = some v := by
      intro c r hlock hstep
      obtain ⟨hc, hq⟩ := Option.ite_none_right_eq_some.mp hstep
      obtain rfl := Option.some.inj hq
      refine ⟨by rw [List.countP_cons_of_neg (by simp [hlock])]; exact hcount, hkeep,
        fun v hv => List.forall_mem_cons.mpr ⟨fun hread => ?_, hall v hv⟩⟩
      rcases hc with hc | hc | hc
      · exact absurd hc hread
      · exact .inl hc
      · cases hg : c.guest with
        | none => exact .inl rfl
        | some w =>
          rcases hv with hv | hv
          · exact absurd (hkeep w (hc.symm.trans hg)) (by simp [hv])
          · exact .inr ((hkeep w (hc.symm.trans hg)).symm.trans hv)
    cases c with
    | notify msg => exact absurd rfl hloud
    | lock w t =>
      obtain ⟨rfl, hq⟩ := Option.ite_none_right_eq_some.mp hq₁
      obtain rfl := Option.some.inj hq
      have hq' : q' = some w := hkeep w rfl
      refine ⟨?_, nofun, fun v hv => List.forall_mem_cons.mpr ⟨fun _ => .inr ?_, hall v hv⟩⟩
      · rw [List.countP_cons_of_pos rfl]
        simpa using hcount
      · rw [hq'] at hv
        exact hv.elim nofun id
    | _ => exact hplain rfl hq₁

section

variable {x : External} {l : LoopCtx}

theorem pings_mute : Mute pings.world pings.Allows :=
  fun _ _ => ⟨fun _ => rfl, fun _ _ h => (Option.some.inj h).symm⟩

theorem pings_step {q : Option ℕ} {c : Cmd} {r : c.Answer} (hlock : ∀ v t, c ≠ .lock v t)
    (hping : ∀ msg, c ≠ .notify msg) :
    pings.step q c r = if c.isRead ∨ c.guest = none ∨ c.guest = q then some q else none := by
  cases c with
  | notify msg => exact absurd rfl (hping msg)
  | lock v t => exact absurd rfl (hlock v t)
  | _ => rfl

theorem pings_within {vmid : ℕ} {c : Cmd} {r : c.Answer} (h : c.Within vmid) :
    pings.step (some vmid) c r = some (some vmid) := by
  rw [pings_step (by rintro v t rfl; exact h.1) (by rintro msg rfl; exact h.1),
    if_pos (.inr h.guest)]

/-- An attempt takes one lock, and goes on with that guest. -/
theorem wp_attempt_pings {ctx : Ctx} {vmid : ℕ} {read : Read} (hvmid : read.vmid = vmid) :
    wp pings.world pings.Allows (attempt x ctx vmid read).run (fun _ _ => True) none := by
  have hbody : wp pings.world pings.Allows (attemptBody x ctx read).run (fun _ q => q = some vmid)
      (some vmid) := by
    refine wp_only (within_attemptBody hvmid) (P := (· = some vmid)) ?_ ?_ rfl
    · rintro q c r q' hc rfl hr
      exact Option.some.inj (hr.symm.trans (pings_within hc))
    · rintro q c hc rfl r
      rw [pings_within hc]
      rfl
  rw [attempt_eq, withLock, ← ends_eta fun _ _ => True, wp_bind, wp_issue]
  refine ⟨fun _ => rfl, fun r q hq => ?_⟩
  obtain rfl : some vmid = q := Option.some.inj hq
  cases r with
  | error e => trivial
  | ok u =>
    show wp pings.world pings.Allows (Fallible.run _) _ _
    rw [wp_bind, wp_attempt]
    refine wp_mono hbody fun r q hq => ?_
    subst hq
    rw [wp_bind, wp_issue]
    refine ⟨fun u => ?_, fun u q _ => ?_⟩
    · have hunlock : pings.step (some vmid) (.unlock vmid) u = some (some vmid) := if_pos (.inr (.inr rfl))
      rw [hunlock]
      rfl
    · cases r <;> trivial

theorem pings_idle {q : Option ℕ} {c : Cmd} (hc : c.Idle) (hq : q = none) :
    pings.Allows q c ∧ ∀ r q', pings.world.reply q c r q' → q' = none := by
  subst hq
  cases c with
  | version | loadConfig | now | sleep _ | notify _ | report _ | list _ =>
    exact ⟨fun _ => rfl, fun _ _ h => (Option.some.inj h).symm⟩
  | _ => exact hc.elim

theorem pings_invariant : Invariant pings.world pings.Allows x l fun _ q => q = none where
  say := pings_mute
  idle := fun _ _ _ hc hq => pings_idle hc hq
  config := fun _ _ _ _ _ _ _ _ h => h
  full := by
    rintro st _ _ now q _ _ rfl t q' h
    exact (Option.some.inj h).symm
  token := fun _ _ _ h => h
  visit := by
    rintro st q g rfl
    have hread : ∀ {a : Result Output} {q}, pings.world.reply none (.metaGet g.vmid) a q → q = none :=
      fun h => (Option.some.inj h).symm
    refine wp_visit_cases pings_mute (fun _ => rfl) (fun _ _ => rfl) (fun a q _ h _ => hread h) ?_
    intro out read q _ h hout _
    obtain rfl := hread h
    refine wp_mono (wp_attempt_pings (decoded_of_readOutput hout).vmid) fun _ q _ => ?_
    exact ⟨fun _ => rfl, fun _ _ h => (Option.some.inj h).symm⟩

/-- **Between two pings, one attempt (proved)**: in every run of the loop, a stretch without a ping
takes at most one lock, and beside the reads of documents its commands are on one guest. -/
theorem one_attempt_between_pings {ctx : Ctx} {n : ℕ} {tr part : List (Event sig)}
    {r : LoopCtx × LoopState} (h : Yields (runLoop x ctx n) tr r) (hin : part <:+: tr)
    (hquiet : ∀ e ∈ part, ¬ e.1.isPing) : OneGuest part := by
  have hwp : wp pings.world pings.Allows (runLoop x ctx n) (fun _ _ => True) none := by
    have hstart : wp pings.world pings.Allows (startLoop ctx) (fun _ q => q = none) none := by
      refine wp_only (idle_startLoop ctx) (P := (· = none)) (fun q c r q' hc hq hr => ?_)
        (fun q c hc hq => ?_) rfl
      · exact ((pings_idle hc hq).2 r q' hr)
      · exact (pings_idle hc hq).1
    refine (wp_seq _ _ _ _).mpr (wp_mono hstart fun lst q hq => ?_)
    exact (wp_seq _ _ _ _).mpr (wp_mono (pings_invariant.wp_turns hq) fun _ _ _ => trivial)
  obtain ⟨q, hrun, -⟩ := Monitor.accepted hwp h
  obtain ⟨q₁, q₂, hpart⟩ := Monitor.exists_run_of_infix hrun hin
  obtain ⟨hcount, -, hall⟩ := oneGuest_of_pings hpart hquiet
  refine ⟨hcount.trans (by split_ifs <;> decide), q₂.getD 0, hall _ ?_⟩
  cases q₂ with
  | none => exact .inl rfl
  | some v => exact .inr rfl

end

/-- From the poll of a turn to the ping after its one attempt. -/
theorem one_attempt_busy : ∃ part, part <:+: (runLoop webExternal webCtx 1).trace busyAnswer 0 ∧
    part.any (fun e => e.1.locks 105) = true ∧ OneGuest part := by
  refine ⟨(((runLoop webExternal webCtx 1).trace busyAnswer 0).drop 4).take 9,
    (List.take_prefix _ _).isInfix.trans (List.drop_suffix _ _).isInfix, by decide +kernel, ?_⟩
  refine one_attempt_between_pings (busy_yields (runLoop webExternal webCtx 1))
    ((List.take_prefix _ _).isInfix.trans (List.drop_suffix _ _).isInfix) ?_
  have hall : ((((runLoop webExternal webCtx 1).trace busyAnswer 0).drop 4).take 9).all
      (fun e => !e.1.isPing) = true := by decide +kernel
  intro e he
  simpa using List.all_eq_true.mp hall e he

/-! ### Attempts of one guest -/

/-- The answer gives no reason to plan the guest again: the config is the one in use, no full pass is
due, and the guest's document, where it is read, is the one of the digest. -/
def Still (x : External) (l : LoopCtx) (st : LoopState) (v : ℕ) (d : Text) : (c : Cmd) → c.Answer → Prop
  | .loadConfig, file => ∀ c, Config.load x.configFromYaml file = .ok c → c = st.config
  | .now, t => fullDue l st t = false
  | .metaGet w, a => w = v → ∀ read, (a >>= readOutput x w) = .ok (some read) → read.digest = d
  | _, _ => True

/-- Such answers, with the locks of the guest counted. -/
def stillWorld (x : External) (l : LoopCtx) (st : LoopState) (v : ℕ) (d : Text) : World sig ℕ :=
  ⟨fun n c r n' => Still x l st v d c r ∧ n' = n + (c.locks v).toNat⟩

section

variable {x : External} {l : LoopCtx} {st₀ : LoopState} {v : ℕ} {d : Text}

/-- How often the guest may still be attempted: not at all once its digest is remembered. -/
structure Budget (st₀ : LoopState) (v : ℕ) (d : Text) (b : ℕ) (st : LoopState) (n : ℕ) : Prop where
  config : st.config = st₀.config
  lastFull : st.lastFull = st₀.lastFull
  spent : n ≤ b
  left : Assoc.get? v st.memo = some d ∨ n < b

theorem still_mute : Mute (stillWorld x l st₀ v d) fun _ _ => True :=
  fun _ _ => ⟨trivial, fun _ _ h => h.2⟩

/-- An attempt takes its guest's lock once. -/
theorem wp_attempt_still {ctx : Ctx} {vmid n : ℕ} {read : Read} (hvmid : read.vmid = vmid) :
    wp (stillWorld x l st₀ v d) (fun _ _ => True) (attempt x ctx vmid read).run
      (fun _ n' => n' = n + (decide (vmid = v)).toNat) n := by
  have hbody : ∀ n, wp (stillWorld x l st₀ v d) (fun _ _ => True) (attemptBody x ctx read).run
      (fun _ n' => n' = n) n := by
    intro n
    refine wp_only (within_attemptBody hvmid) (P := (· = n)) ?_ (fun _ _ _ _ => trivial) rfl
    rintro n₁ c r n₂ hc rfl ⟨-, hn⟩
    have hlock : c.locks v = false := by
      cases c with
      | lock w t => exact hc.1.elim
      | _ => rfl
    rw [hn, hlock]
    rfl
  rw [attempt_eq, withLock, ← ends_eta fun _ (n' : ℕ) => n' = n + _, wp_bind, wp_issue]
  refine ⟨trivial, fun r n₁ h₁ => ?_⟩
  obtain ⟨-, rfl⟩ := h₁
  cases r with
  | error e => rfl
  | ok u =>
    show wp (stillWorld x l st₀ v d) _ (Fallible.run _) _ _
    rw [wp_bind, wp_attempt]
    refine wp_mono (hbody _) fun r n₂ hn₂ => ?_
    subst hn₂
    rw [wp_bind, wp_issue]
    refine ⟨trivial, fun u n₃ h₃ => ?_⟩
    obtain ⟨-, rfl⟩ := h₃
    cases r <;> rfl

theorem budget_invariant {b : ℕ} :
    Invariant (stillWorld x l st₀ v d) (fun _ _ => True) x l (Budget st₀ v d b) where
  say := still_mute
  idle := by
    rintro st n c hc h
    refine ⟨trivial, ?_⟩
    rintro r n' ⟨-, rfl⟩
    have hlock : c.locks v = false := by
      cases c with
      | lock w t => exact hc.elim
      | _ => rfl
    rw [hlock]
    exact h
  config := by
    rintro st n₀ n file c ⟨hfile, -⟩ hload hne h
    exact absurd ((hfile c hload).trans h.config.symm) hne
  full := by
    rintro st n₀ n₁ now n ⟨hnow, -⟩ hdue h
    have hsame : fullDue l st now = fullDue l st₀ now := by
      rw [fullDue, fullDue, h.lastFull]
    have hnot : fullDue l st₀ now = false := hnow
    rw [hsame, hnot] at hdue
    cases hdue
  token := fun _ _ _ h => ⟨h.config, h.lastFull, h.spent, h.left⟩
  visit := by
    intro st n g h
    have hread : ∀ {a : Result Output} {n'}, (stillWorld x l st₀ v d).reply n (.metaGet g.vmid) a n' →
        n' = n ∧ (g.vmid = v → ∀ read, (a >>= readOutput x g.vmid) = .ok (some read) →
          read.digest = d) := fun h => ⟨h.2, h.1⟩
    refine wp_visit_cases still_mute (fun _ => h) (fun _ => trivial) (fun a n' _ ha _ => ?_) ?_
    · obtain ⟨rfl, -⟩ := hread ha
      exact h
    intro out read n' _ ha hout hmemo
    obtain ⟨rfl, hdigest⟩ := hread ha
    refine wp_mono (wp_attempt_still (decoded_of_readOutput hout).vmid) fun _ n₁ hn₁ => ?_
    refine ⟨trivial, fun u n₂ hn₂ => ?_⟩
    obtain ⟨-, rfl⟩ := hn₂
    subst hn₁
    by_cases hv : g.vmid = v
    · -- the guest itself: its digest was not remembered, so there was one attempt left
      have hd : read.digest = d := hdigest hv read hout
      have hleft : n' < b := h.left.resolve_left fun hget => hmemo (by rw [hv, hd]; exact hget)
      refine ⟨h.config, h.lastFull, ?_, .inl ?_⟩
      · simpa [hv, Cmd.locks] using hleft
      · show Assoc.get? v (Assoc.set g.vmid read.digest st.memo) = some d
        rw [Assoc.get?_set, if_pos hv.symm, hd]
    · refine ⟨h.config, h.lastFull, by simpa [hv, Cmd.locks] using h.spent, ?_⟩
      have hget : Assoc.get? v (Assoc.set g.vmid read.digest st.memo) = Assoc.get? v st.memo := by
        rw [Assoc.get?_set, if_neg (Ne.symm hv)]
      show Assoc.get? v (Assoc.set g.vmid read.digest st.memo) = some d ∨ _
      rw [hget]
      simpa [hv, Cmd.locks] using h.left

/-- **One attempt for one document (proved)**: over any number of turns in which the config re-read is
the one in use, no full pass is due and the guest's document is the one of `d`, the guest is attempted
at most once, and not at all where `d` is remembered; whatever else is answered and whatever fails. -/
theorem attempted_once {n : ℕ} {tr : List (Event sig)} {st : LoopState}
    (h : Yields (turns x l n st₀) tr st) (hstill : ∀ e ∈ tr, Still x l st₀ v d e.1 e.2) :
    tr.countP (fun e => e.1.locks v) ≤ if Assoc.get? v st₀.memo = some d then 0 else 1 := by
  have hcount : ∀ (tr : List (Event sig)) (m : ℕ),
      tr.foldl (fun m e => m + (e.1.locks v).toNat) m = m + tr.countP fun e => e.1.locks v := by
    intro tr
    induction tr with
    | nil => exact fun _ => rfl
    | cons e tr ih =>
      intro m
      rw [List.foldl_cons, ih, List.countP_cons]
      cases e.1.locks v <;> simp [Nat.add_assoc, Nat.add_comm]
  have hrun := run_of_events (W := stillWorld x l st₀ v d) (s := 0)
    (f := fun m e => m + (e.1.locks v).toNat) h fun e he m => ⟨hstill e he, rfl⟩
  rw [hcount, Nat.zero_add] at hrun
  have hstart : Budget st₀ v d (if Assoc.get? v st₀.memo = some d then 0 else 1) st₀ 0 := by
    refine ⟨rfl, rfl, Nat.zero_le _, ?_⟩
    split_ifs with hget
    · exact .inl hget
    · exact .inr Nat.one_pos
  exact (wp_run (budget_invariant.wp_turns hstart) hrun).spent

end

def busyLoop : LoopCtx := { node := "pve", tag := none, interval := 30, fullEvery := 600 }

def busyState : LoopState := { config := Config.default, lastToken := [], lastFull := 0, memo := [] }

/-- Three polls with a new token each, and one attempt of the guest that is busy. -/
theorem attempted_once_busy :
    ((turns webExternal busyLoop 3 busyState).trace busyAnswer 0).countP (fun e => e.1.isRead) = 6 ∧
      ((turns webExternal busyLoop 3 busyState).trace busyAnswer 0).countP
        (fun e => e.1.locks 105) ≤ 1 := by
  refine ⟨by decide +kernel, ?_⟩
  refine attempted_once (d := webExternal.digest (webText "nginx"))
    (busy_yields (turns webExternal busyLoop 3 busyState)) ?_
  rintro ⟨c, r⟩ he
  obtain ⟨polls, hr⟩ := answered_of_mem_trace he
  obtain rfl : r = (busyAnswer polls c).1 := hr
  cases c with
  | loadConfig =>
    intro c hc
    exact (Except.ok.inj hc).symm
  | now => exact (by decide : fullDue busyLoop busyState 0 = false)
  | metaGet w =>
    rintro rfl read hread
    have hd := decoded_of_readOutput (show readOutput webExternal 105
      (storeOutput (some (webText "nginx"))) = .ok (some read) from hread)
    rw [hd.digest, hd.text]
    rfl
  | _ => trivial

end PveCompose
