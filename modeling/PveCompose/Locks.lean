import PveCompose.Create
import PveCompose.Daemon
import PveCompose.Session
import PveCompose.Lib.Locking

/-!
# The guests' locks (`lock.rs`, and all that takes one)

Verbs that a human runs, the loop and `new` take a guest's lock and give it back; any number of them may
be at work on one node, and any of them may be killed.

* `Cmd.lockRole`, `locking` — which commands take, give or need a lock;
* `tidy_verb`, `tidy_iteration`, `tidy_new` — **PROVED**: each takes one at a time, changes only the
  guest whose lock it has, and gives it back, whatever its commands are answered;
* `changes_exclude` — **PROVED**: so no two of them ever change one guest at a time;
* `never_stuck` — **PROVED**: none waits for one that waits, and what is waited for comes free.
-/

namespace PveCompose

open Programs Locking

/-! ### What needs a lock -/

/-- A command that changes a guest, or what runs in it, needs the guest's lock. -/
def Cmd.lockRole : Cmd → Role ℕ
  | .lock v _ => .take v
  | .unlock v => .give v
  | .pct v _ _ | .dockerInstall v | .exec v _ | .writeCompose v _ | .pull v | .up v
  | .writeFacts v _ => .use v
  | _ => .free

/-- A guest is created, and given its document, before there is anything to lock. -/
def NewCmd.lockRole : NewCmd → Role ℕ
  | .host c => c.lockRole
  | .start v | .waitReady v _ => .use v
  | _ => .free

def Cmd.locked : (c : Cmd) → c.Answer → Bool
  | .lock _ _, r => r.isOk
  | _, _ => false

def NewCmd.locked : (c : NewCmd) → c.Answer → Bool
  | .host c, r => c.locked r
  | _, _ => false

def hostLocking : Locking sig ℕ := ⟨Cmd.lockRole, Cmd.locked⟩

def locking : Locking newSig ℕ := ⟨NewCmd.lockRole, NewCmd.locked⟩

theorem within_of_at {vmid : ℕ} {c : Cmd} (h : c.At vmid) : hostLocking.Within vmid c := by
  cases c with
  | pct v op call => exact .inr (congrArg Role.use h)
  | writeCompose v text => exact .inr (congrArg Role.use h)
  | pull v => exact .inr (congrArg Role.use h)
  | up v => exact .inr (congrArg Role.use h)
  | writeFacts v f => exact .inr (congrArg Role.use h)
  | exec v script => exact .inr (congrArg Role.use h)
  | dockerInstall v => exact .inr (congrArg Role.use h)
  | lock v w => exact h.elim
  | unlock v => exact h.elim
  | _ => exact .inl rfl

/-! ### The verbs -/

variable {x : External} {ctx : Ctx} {vmid : ℕ}

theorem tidy_withLock {α : Type} {body : M α} (h : Only (hostLocking.Within vmid) body.run) :
    hostLocking.Tidy (withLock vmid body).run := by
  show hostLocking.Tidy (.call (S := sig) (.lock vmid 60) _)
  refine tidy_section rfl (fun r hr => ?_) fun r hr => ?_
  · cases r with
    | error e => cases hr
    | ok u =>
      show wp hostLocking.monitor.world hostLocking.monitor.Allows (Fallible.run _) _ _
      rw [← ends_eta (fun _ q => q = none), wp_bind, wp_attempt]
      refine wp_mono (keeps_within h) fun r q hq => ?_
      subst hq
      have hend : hostLocking.Keeps (Prog.bind (Prog.call (S := sig) (.unlock vmid) .ret)
          fun _ => Prog.ret r) (fun _ q => q = none) (some vmid) := keeps_give rfl fun _ => rfl
      cases r with
      | error e => exact hend
      | ok a => exact hend
  · cases r with
    | error e => exact rfl
    | ok u => cases hr

theorem within_requireRunning : Only (hostLocking.Within vmid) (requireRunning ctx vmid).run := by
  refine only_bind (only_issue (.inl rfl) _) fun status => ?_
  cases status with
  | running => exact only_pure _
  | stopped => exact only_ofExcept _
  | other => exact only_ofExcept _

/-- After the guest was seen running. -/
theorem tidy_running {α : Type} {rest : M α} (h : Only (Cmd.At vmid) rest.run) :
    hostLocking.Tidy (withLock vmid do
      requireRunning ctx vmid
      rest).run :=
  tidy_withLock (only_bind within_requireRunning fun _ => only_mono h fun _ => within_of_at)

/-- **Every verb (proved).** -/
theorem tidy_verb (verb : Verb) : hostLocking.Tidy (verb.run x ctx vmid).run := by
  cases verb with
  | pctApply =>
    refine tidy_bind (tidy_running ?_) fun _ => rfl
    exact only_bind_gives (at_of_looks looks_load) load_gives fun g hg => at_pctApplyGuest hg
  | dockerApply o => exact tidy_running (at_docker_rest o)
  | dockerUpgrade o => exact tidy_running (at_docker_rest o)
  | apply o => exact tidy_running (at_apply_rest o)
  | upgrade o => exact tidy_running (at_apply_rest o)
  | compose args => exact tidy_running (at_of_looks (looks_passthrough args))

/-! ### The loop -/

theorem tidy_attempt {read : Read} (h : read.vmid = vmid) :
    hostLocking.Tidy (attempt x ctx vmid read).run := by
  refine tidy_withLock (only_mono ?_ fun _ => within_of_at)
  refine only_bind_gives (at_of_looks (looks_of_watches (watches_loadWith h))) (loadWith_gives h)
    fun g hg => ?_
  exact only_bind_gives (at_pctHalf hg.1) (pctHalf_gives hg.1) fun g' hg' => at_dockerHalf hg'.1

theorem tidy_say (msg : Text) : hostLocking.Tidy (say msg) := tidy_ask rfl

theorem tidy_visit (memo : Memo) (l : Listed) : hostLocking.Tidy (visit x ctx memo l) := by
  unfold visit
  split_ifs
  · exact tidy_pure memo
  show hostLocking.Tidy (.call (S := sig) (.metaGet l.vmid) _)
  refine tidy_call rfl fun r => ?_
  show hostLocking.Tidy (Prog.bind (.ret (r >>= readOutput x l.vmid)) _)
  generalize ha : (r >>= readOutput x l.vmid) = a
  cases a with
  | error e =>
    show hostLocking.Tidy (Prog.bind (say _) _)
    exact tidy_bindProg (tidy_say _) fun _ => tidy_pure memo
  | ok found =>
    cases found with
    | none => exact tidy_pure memo
    | some read =>
      obtain ⟨out, -, hout⟩ := bind_eq_ok.mp ha
      show hostLocking.Tidy (if _ then _ else _)
      split_ifs
      · exact tidy_pure memo
      · refine tidy_bindProg (tidy_attempt (decoded_of_readOutput hout).vmid) fun r => ?_
        cases r with
        | error e =>
          exact tidy_bindProg (tidy_say _) fun _ => tidy_bindProg (tidy_ask rfl) fun _ => tidy_pure _
        | ok u => exact tidy_bindProg (tidy_ask rfl) fun _ => tidy_pure _

theorem tidy_visitAll (memo : Memo) (ls : List Listed) :
    hostLocking.Tidy (visitAll x ctx memo ls) := by
  induction ls generalizing memo with
  | nil => exact tidy_pure _
  | cons l ls ih => exact tidy_bindProg (tidy_visit memo l) fun memo' => ih memo'

theorem tidy_passTurn (l : LoopCtx) (st : LoopState) (token : Text) :
    hostLocking.Tidy (passTurn x l st token) := by
  refine tidy_bindProg ?_ fun a => ?_
  · refine tidy_bindProg (tidy_ask rfl) fun r => ?_
    cases r with
    | error e => exact tidy_pure _
    | ok ls => exact tidy_bindProg (tidy_visitAll _ ls) fun _ => tidy_pure _
  · obtain ⟨r, memo⟩ := a
    cases r with
    | error e => exact tidy_bindProg (tidy_say _) fun _ => tidy_pure _
    | ok u => exact tidy_pure _

theorem tidy_reload (st : LoopState) (file : FileRead) : hostLocking.Tidy (reload x st file) := by
  unfold reload
  cases Config.load x.configFromYaml file with
  | error e => exact tidy_bindProg (tidy_say _) fun _ => tidy_pure _
  | ok c =>
    dsimp only
    split_ifs
    · exact tidy_bindProg (tidy_say _) fun _ => tidy_pure _
    · exact tidy_pure _

/-- **Every turn of the loop (proved).** -/
theorem tidy_iteration (l : LoopCtx) (st : LoopState) : hostLocking.Tidy (iteration x l st) := by
  refine tidy_bindProg (tidy_ask rfl) fun _ => tidy_bindProg (tidy_ask rfl) fun r => ?_
  cases r with
  | error e => exact tidy_bindProg (tidy_say _) fun _ => tidy_bindProg (tidy_ask rfl) fun _ => tidy_pure _
  | ok answer =>
    refine tidy_bindProg (tidy_ask rfl) fun now => tidy_bindProg (tidy_ask rfl) fun file => ?_
    refine tidy_bindProg (tidy_reload st file) fun st' => ?_
    have hend : ∀ st'' : LoopState, hostLocking.Tidy (do
        Prog.ask (S := sig) (.sleep l.interval)
        pure st'' : Prog sig LoopState) := fun st'' => tidy_bindProg (tidy_ask rfl) fun _ => tidy_pure _
    show hostLocking.Tidy (if _ then _ else _)
    split_ifs
    · refine tidy_bindProg ?_ fun st'' => tidy_bindProg (tidy_passTurn l st'' _) hend
      unfold startFull
      split_ifs
      · exact tidy_bindProg (tidy_ask rfl) fun _ => tidy_pure _
      · exact tidy_pure _
    · exact hend st'

/-! ### `new` -/

/-- A command that has nothing to do with the locks. -/
def NewCmd.Unlocked (c : NewCmd) : Prop := c.lockRole = .free

/-- One that is issued while the guest's lock is had. -/
def NewCmd.WithinLock (vmid : ℕ) (c : NewCmd) : Prop := locking.Within vmid c

section New

variable {a : NewArgs} {t : Terminal} {K : NewCmd → Prop}

theorem only_newHost {α : Type} {p : M α} (h : Only (fun c => K (.host c)) p.run) :
    Only K (New.host p).run :=
  only_bindProg (only_embed (e := hostEmbedding) h) fun _ => trivial

theorem only_newCommand {α : Type} {c : NewCmd} (h : K c) (f : c.Answer → Result α) :
    Only K (New.command c f).run := only_issue (S := newSig) h _

theorem only_newSay (h : ∀ msg, K (.host (.report msg))) (msg : Text) : Only K (New.say msg).run :=
  only_newHost (only_issue (h msg) _)

theorem unlocked_command {α : Type} {c : NewCmd} (h : c.lockRole = .free) (f : c.Answer → Result α) :
    Only NewCmd.Unlocked (New.command c f).run := only_newCommand h f

theorem unlocked_say (msg : Text) : Only NewCmd.Unlocked (New.say msg).run :=
  only_newSay (fun _ => rfl) msg

theorem unlocked_settleStorage {flag configured : Option Text} {content what configKey : Text} :
    Only NewCmd.Unlocked (settleStorage ctx flag configured content what configKey t).run := by
  unfold settleStorage
  split
  · exact only_pure _
  · exact only_pure _
  · refine only_bind (unlocked_command rfl _) fun rows => ?_
    dsimp only
    split_ifs
    · exact only_throw _
    · exact only_bind (only_ofExcept _) fun _ => only_pure _
    · exact only_throw _

theorem unlocked_settleTemplateStorage :
    Only NewCmd.Unlocked (settleTemplateStorage ctx a t).run := by
  unfold settleTemplateStorage
  split
  · exact only_pure _
  · exact unlocked_settleStorage

theorem unlocked_storeAsked {templateStorage storage : Option Text} :
    Only NewCmd.Unlocked (storeAsked x ctx templateStorage storage).run := by
  unfold storeAsked
  split_ifs
  · refine only_bind (unlocked_command rfl _) fun c => only_bind (only_ofExcept _) fun text => ?_
    exact only_bind (unlocked_command rfl _) fun _ => only_bind (unlocked_say _) fun _ => only_pure _
  · exact only_pure _

theorem unlocked_settle : Only NewCmd.Unlocked (settle x ctx a t).run :=
  only_bind unlocked_settleTemplateStorage fun _ => only_bind unlocked_settleStorage fun _ =>
    only_bind (only_ofExcept _) fun _ => only_bind (only_ofExcept _) fun _ =>
      only_bind unlocked_storeAsked fun _ => only_pure _

theorem unlocked_arch : Only NewCmd.Unlocked arch.run := by
  refine only_bind (unlocked_command rfl _) fun out => ?_
  dsimp only
  split_ifs
  · exact only_throw _
  · exact only_pure _

theorem unlocked_newestVztmpl {storage pre : Text} :
    Only NewCmd.Unlocked (newestVztmpl ctx storage pre).run :=
  only_bind unlocked_arch fun _ => only_bind (unlocked_command rfl _) fun _ => only_pure _

theorem unlocked_resolve {storage : Text} {explicit : Option Text} :
    Only NewCmd.Unlocked (resolve ctx storage explicit).run := by
  unfold resolve
  split
  · split_ifs
    · exact only_pure _
    · refine only_bind unlocked_newestVztmpl fun v => ?_
      cases v with
      | some v => exact only_pure _
      | none => exact only_throw _
  · refine only_bind unlocked_newestVztmpl fun v => ?_
    cases v with
    | some v => exact only_pure _
    | none =>
      refine only_bind unlocked_arch fun arch => only_bind (unlocked_say _) fun _ => ?_
      refine only_bind (unlocked_command rfl _) fun _ => only_bind (unlocked_command rfl _) fun out => ?_
      split
      · exact only_throw _
      · exact only_bind (unlocked_say _) fun _ => only_bind (unlocked_command rfl _) fun _ => only_pure _

theorem unlocked_writeInitial {vmid : ℕ} {text : Text} :
    Only NewCmd.Unlocked (writeInitial vmid text).run :=
  only_issue (S := newSig) (show NewCmd.lockRole (.metaSet vmid text) = .free from rfl) _

/-- With the lock, `new` works on its own guest. -/
theorem within_firstApply {template : Text} :
    Only (NewCmd.WithinLock a.vmid) (firstApply x ctx a template).run := by
  have hcommand : ∀ {α : Type} {c : NewCmd} (f : c.Answer → Result α),
      c.lockRole = .free ∨ c.lockRole = .use a.vmid → Only (NewCmd.WithinLock a.vmid) (New.command c f).run :=
    fun f h => only_newCommand h f
  have hsay : ∀ msg, Only (NewCmd.WithinLock a.vmid) (New.say msg).run := only_newSay fun _ => .inl rfl
  refine only_bind (hcommand _ (.inr rfl)) fun _ => only_bind (hcommand _ (.inr rfl)) fun _ => ?_
  refine only_bind (hsay _) fun _ => ?_
  refine only_bind (only_newHost (only_bind within_requireRunning fun _ => ?_)) fun _ => ?_
  · exact only_mono (at_apply_rest _) fun _ => within_of_at
  refine only_bind (hcommand _ (.inl rfl)) fun _ => only_bind (hcommand _ (.inr rfl)) fun _ => ?_
  exact only_bind (hsay _) fun _ => only_newHost within_requireRunning

/-- **`new` (proved).** -/
theorem tidy_new : locking.Tidy (new x ctx a t).run := by
  have hfree : ∀ {α : Type} {p : New α}, Only NewCmd.Unlocked p.run → locking.Tidy p.run :=
    fun h => tidy_free h
  refine tidy_bind (hfree (unlocked_command rfl _)) fun owner => ?_
  split_ifs
  · exact hfree (only_throw _)
  refine tidy_bind (hfree unlocked_settle) fun settled => ?_
  refine tidy_bind (hfree unlocked_resolve) fun template => tidy_bind (hfree (unlocked_say _)) fun _ => ?_
  refine tidy_bind (hfree (unlocked_command rfl _)) fun _ => ?_
  refine tidy_bind (hfree unlocked_writeInitial) fun _ => ?_
  refine tidy_bind (hfree (unlocked_say _)) fun _ => ?_
  show locking.Tidy (.call (S := newSig) (.host (.lock a.vmid 60)) _)
  refine tidy_section rfl (fun r hr => ?_) fun r hr => ?_
  · cases r with
    | error e => cases hr
    | ok u =>
      show wp locking.monitor.world locking.monitor.Allows (Fallible.run _) _ _
      rw [← ends_eta (fun _ q => q = none), wp_bind, wp_attempt]
      refine wp_mono (keeps_within within_firstApply) fun r q hq => ?_
      subst hq
      have hend : locking.Keeps (Prog.bind (Prog.call (S := newSig) (.host (.unlock a.vmid)) .ret)
          fun _ => Prog.ret r) (fun _ q => q = none) (some a.vmid) := keeps_give rfl fun _ => rfl
      cases r with
      | error e => exact hend
      | ok b => exact hend
  · cases r with
    | error e => exact tidy_pure _
    | ok u => cases hr

end New

/-! ### All of them together -/

/-- What may be at work on a node. -/
inductive Contender (x : External) : Prog newSig Unit → Prop where
  | verb (ctx : Ctx) (vmid : ℕ) (verb : Verb) :
      Contender x ((verb.run x ctx vmid).run.void.embed hostEmbedding)
  | turn (l : LoopCtx) (st : LoopState) : Contender x ((iteration x l st).void.embed hostEmbedding)
  | new (ctx : Ctx) (a : NewArgs) (t : Terminal) : Contender x (new x ctx a t).run.void

theorem tidy_contender {p : Prog newSig Unit} (h : Contender x p) : locking.Tidy p := by
  have hhost : ∀ {p : Prog sig Unit}, hostLocking.Tidy p → locking.Tidy (p.embed hostEmbedding) :=
    fun h => keeps_embed (fun _ => rfl) (fun _ _ => rfl) h
  cases h with
  | verb ctx vmid verb => exact hhost (tidy_bindProg (tidy_verb verb) fun _ => rfl)
  | turn l st => exact hhost (tidy_bindProg (tidy_iteration l st) fun _ => rfl)
  | new ctx a t => exact tidy_bindProg tidy_new fun _ => rfl

/-- What a command is answered with at the very least. -/
def Cmd.someAnswer : (c : Cmd) → c.Answer
  | .version | .list _ | .metaGet _ | .exec _ _ | .status _ _ | .config _ _ | .dockerInfo _ | .ps _
  | .readCompose _ | .readFacts _ | .lock _ _ | .pct _ _ _ | .dockerInstall _ | .writeCompose _ _
  | .pull _ | .up _ | .writeFacts _ _ => .error ⟨[]⟩
  | .loadConfig => .notFound
  | .now => (0 : ℤ)
  | .wallClock => ([] : Text)
  | .sleep _ | .notify _ | .report _ | .unlock _ => ()

def NewCmd.someAnswer : (c : NewCmd) → c.Answer
  | .host c => c.someAnswer
  | .ownerNode _ | .storages _ _ | .content _ _ | .architecture | .pveamAvailable | .saveConfig _
  | .pveamUpdate | .pveamDownload _ _ | .create _ _ | .metaSet _ _ | .start _ | .waitReady _ _ =>
    .error ⟨[]⟩

instance (c : NewCmd) : Inhabited (newSig.Ans c) := ⟨c.someAnswer⟩

section All

variable {ι : Type} [DecidableEq ι] {w : Crew newSig (Holders ℕ ι) ι}

/-- The node, with anybody at work on it. -/
abbrev Working (x : External) (w : Crew newSig (Holders ℕ ι) ι) : Prop :=
  locking.Turns (fun _ => Contender x) (.idle fun _ => none) w

theorem sound_working (h : Working x w) : locking.Sound w :=
  sound_turns (fun _ _ => tidy_contender) sound_idle h

/-- **Nobody changes what another one changes (proved)**: who changes a guest has its lock, nobody has
two locks, and who is done has none. -/
theorem changes_exclude (h : Working x w) :
    (∀ i c rest vmid, w.progs i = .call c rest → c.lockRole = .use vmid → w.state vmid = some i) ∧
      (∀ i vmid vmid', w.state vmid = some i → w.state vmid' = some i → vmid = vmid') ∧
        ∀ i, w.progs i = .ret () → ∀ vmid, w.state vmid ≠ some i := by
  have hw := sound_working h
  exact ⟨fun i c rest vmid hp hc => hw.uses hp hc, fun i _ _ => hw.one, fun i hp => hw.idle hp⟩

end All

/-- A compose command line typed by a human. -/
def typedUp : Prog newSig Unit :=
  ((Verb.compose ["up", "-d"]).run webExternal webCtx 105).run.void.embed hostEmbedding

/-- Two of them on one guest: one has seen it running and is about to start its stack, the other is about
to ask for the lock. -/
theorem two_working : ∃ (w : Crew newSig (Holders ℕ Bool) Bool) (script : Text),
    Working webExternal w ∧ w.state 105 = some false ∧
      (∃ rest, w.progs false = .call (.host (.exec 105 script)) rest) ∧
      ∃ rest, w.progs true = .call (.host (.lock 105 60)) rest := by
  have hverb : Contender webExternal typedUp := .verb webCtx 105 (.compose ["up", "-d"])
  let idle : Crew newSig (Holders ℕ Bool) Bool := .idle fun _ => none
  have hfirst : Working webExternal ⟨idle.state, Function.update idle.progs false typedUp⟩ :=
    .single (.start rfl hverb)
  have hgranted : locking.Does false idle.state (.host (.lock 105 60)) (.ok ())
      (Function.update idle.state 105 (some false)) := .inl ⟨rfl, rfl, rfl⟩
  have hlocked := hfirst.tail (.act rfl hgranted)
  have hrunning (t : Holders ℕ Bool) : locking.Does false t (.host (.status "pve" 105)) (.ok .running) t :=
    rfl
  have hseen := hlocked.tail (.act rfl (hrunning _))
  exact ⟨_, _, hseen.tail (.start (i := true) rfl hverb), rfl, ⟨_, rfl⟩, _, rfl⟩

theorem changes_exclude_two : ∃ (w : Crew newSig (Holders ℕ Bool) Bool) (script : Text),
    (∃ rest, w.progs false = .call (.host (.exec 105 script)) rest) ∧ w.state 105 = some false ∧
      ∀ vmid, w.state vmid = some false → 105 = vmid := by
  obtain ⟨w, script, hw, -, ⟨rest, hrest⟩, -⟩ := two_working
  obtain ⟨huses, hone, -⟩ := changes_exclude hw
  have hlocked := huses false _ rest 105 hrest rfl
  exact ⟨w, script, ⟨rest, hrest⟩, hlocked, fun vmid => hone false 105 vmid hlocked⟩

section All

variable {ι : Type} [DecidableEq ι] {x : External} {w : Crew newSig (Holders ℕ ι) ι}

/-- **Nobody waits for good (proved)**: who has the lock that another one asks for is at work, asks for
none itself, and gives it back after finitely many commands, however they are answered; and while
somebody is not done, somebody gets on. -/
theorem never_stuck (h : Working x w) :
    (∀ i c rest vmid j, w.progs i = .call c rest → c.lockRole = .take vmid → w.state vmid = some j →
      j ≠ i ∧ (∃ c' rest', w.progs j = .call c' rest' ∧ ∀ vmid', c'.lockRole ≠ .take vmid') ∧
        locking.Soon j (fun t => t vmid = none) w) ∧
      ∀ i, w.progs i ≠ .ret () → locking.GetsOn w := by
  have hw := sound_working h
  refine ⟨fun i c rest vmid j hp hc hj => ?_, fun i hi => hw.progress (fun c vmid hc => ?_) hi⟩
  · obtain ⟨hne, hworker⟩ := hw.worker hp hc hj
    exact ⟨hne, hworker, hw.freed hj⟩
  · cases c with
    | host c =>
      cases c with
      | lock v n => exact ⟨.ok (), rfl⟩
      | _ => cases hc
    | _ => cases hc

end All

theorem never_stuck_two : ∃ w : Crew newSig (Holders ℕ Bool) Bool,
    w.state 105 = some false ∧ locking.Soon false (fun t => t 105 = none) w := by
  obtain ⟨w, -, hw, hlocked, -, rest, hrest⟩ := two_working
  exact ⟨w, hlocked, ((never_stuck hw).1 true _ rest 105 false hrest rfl hlocked).2.2⟩

end PveCompose
