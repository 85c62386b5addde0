import PveCompose.Node

/-!
# Sessions: what is issued between a lock and its unlock

The verbs a human runs, the passthrough among them (`main.rs`, `stack.rs`), and the loop's attempt
work on one guest between taking its lock and giving it back.  Which commands they issue there is
known in any world.

* `Cmd.At`, `Cmd.Looks`, `Cmd.Watches` — the commands on one guest that leave its lock alone, those
  among them that neither configure it nor write to it, and those of these that are no script;
* `at_pctHalf`, `at_dockerHalf` — **PROVED**: the halves of an attempt issue no others;
* `wp_verb` — **the rule of a hand-run verb**: it takes the lock, looks whether the guest runs, and
  goes on only if it does, with such commands.
-/

namespace PveCompose

open Programs

/-! ### The verbs -/

/-- `shell_quote`. -/
def shellQuote (s : Text) : Text :=
  if s ≠ [] ∧ s.all (fun c => c.isAlphanum || "-_./:=@,".toList.contains c) then s
  else "'" ++ replace s "'" "'\\''" ++ "'"

/-- `brief`: the first line of a script that is not blank, shortened. -/
def brief (script : Text) : Text :=
  let line := trim (((script.splitOn '\n').find? fun l => trim l ≠ []).getD [])
  if 60 < line.length then line.take 59 ++ "…" else line

def composeCommand : Text := "cd " ++ STACK_DIR ++ " && docker compose"

/-- `stack::passthrough`: any compose command line, as a human typed it. -/
def passthrough (vmid : ℕ) (args : List Text) : M Unit := do
  let script := composeCommand ++ " " ++ List.intercalate " " (args.map shellQuote)
  let out ← .issue (.exec vmid script) id
  if out.status ≠ 0 then
    .ofExcept (withContext ("guest " ++ dec vmid ++ ": `" ++ brief script ++ "`")
      (bail ("pct exec " ++ dec vmid ++ " -- /bin/sh -c '" ++ script ++ "' failed (exit "
        ++ decInt out.status ++ ")")))
  else pure ()

/-- What a human may run on a guest that is there. -/
inductive Verb where
  | pctApply : Verb
  | dockerApply : Options → Verb
  | apply : Options → Verb
  | dockerUpgrade : Options → Verb
  | upgrade : Options → Verb
  | compose : List Text → Verb

variable (x : External)

/-- The arms of `main::run` for these verbs. -/
def Verb.run (ctx : Ctx) (vmid : ℕ) : Verb → M Unit
  | .pctApply => do
    let _ ← PveCompose.pctApply x ctx vmid
    pure ()
  | .dockerApply o => PveCompose.dockerApply x ctx vmid o
  | .apply o => PveCompose.apply x ctx vmid o
  | .dockerUpgrade o => PveCompose.dockerUpgrade x ctx vmid o
  | .upgrade o => PveCompose.upgrade x ctx vmid o
  | .compose args => withLock vmid do
    requireRunning ctx vmid
    passthrough vmid args

/-! ### Commands on one guest -/

/-- The `pct` calls a command is made of, with the guest's number.  A file is pushed beside the one it
replaces and renamed over it. -/
def Cmd.pctCalls : Cmd → List (ℕ × Text)
  | .pct v _ (.set _ _) => [(v, "set")]
  | .pct v _ (.resize _ _) => [(v, "resize")]
  | .dockerInfo v | .dockerInstall v | .exec v _ | .ps v | .readCompose v | .pull v | .up v
  | .readFacts v => [(v, "exec")]
  | .writeCompose v _ | .writeFacts v _ => [(v, "exec"), (v, "push"), (v, "exec")]
  | _ => []

/-- The commands on the guest `vmid`, and on none, that are the same whatever the document says, and
neither configure it, nor write its files, nor start its stack. -/
def Cmd.Watches (vmid : ℕ) : Cmd → Prop
  | .wallClock | .report _ => True
  | .metaGet v | .config _ v | .dockerInfo v | .dockerInstall v | .ps v | .readCompose v
  | .readFacts v => v = vmid
  | _ => False

/-- Those commands, and the scripts that are run in the guest. -/
def Cmd.Looks (vmid : ℕ) : Cmd → Prop
  | .exec v _ => v = vmid
  | c => c.Watches vmid

/-- The commands on the guest `vmid`, and on none, that leave its lock alone. -/
def Cmd.At (vmid : ℕ) : Cmd → Prop
  | .pct v _ _ | .writeCompose v _ | .pull v | .up v | .writeFacts v _ => v = vmid
  | c => c.Looks vmid

theorem Cmd.Watches.looks {vmid : ℕ} {c : Cmd} (h : c.Watches vmid) : c.Looks vmid := by
  cases c with
  | exec v script => exact h.elim
  | _ => exact h

theorem Cmd.Looks.at {vmid : ℕ} {c : Cmd} (h : c.Looks vmid) : c.At vmid := by
  cases c with
  | pct v op call => exact h.elim
  | writeCompose v text => exact h.elim
  | pull v => exact h.elim
  | up v => exact h.elim
  | writeFacts v f => exact h.elim
  | _ => exact h

section At

variable {vmid : ℕ} {x} {ctx : Ctx} {g : Guest}

/-- What is called for a command on one guest is called on that guest. -/
theorem Cmd.At.pctCalls {c : Cmd} (h : c.At vmid) : ∀ call ∈ c.pctCalls, call.1 = vmid := by
  cases c with
  | pct v op call =>
    obtain rfl : v = vmid := h
    cases call <;> simp [Cmd.pctCalls]
  | dockerInfo _ | dockerInstall _ | exec _ _ | ps _ | readCompose _ | pull _ | up _ | readFacts _ =>
    exact List.forall_mem_singleton.mpr h
  | writeCompose v _ | writeFacts v _ =>
    obtain rfl : v = vmid := h
    simp [Cmd.pctCalls]
  | _ => exact nofun

theorem at_of_looks {α : Type} {p : Prog sig α} (h : Only (Cmd.Looks vmid) p) :
    Only (Cmd.At vmid) p := only_mono h fun _ => Cmd.Looks.at

theorem looks_of_watches {α : Type} {p : Prog sig α} (h : Only (Cmd.Watches vmid) p) :
    Only (Cmd.Looks vmid) p := only_mono h fun _ => Cmd.Watches.looks

theorem watches_issue {α : Type} {c : Cmd} {f : sig.Ans c → Result α} (h : c.Watches vmid) :
    Only (Cmd.Watches vmid) (Fallible.issue (S := sig) c f).run := only_issue h f

theorem looks_issue {α : Type} {c : Cmd} {f : sig.Ans c → Result α} (h : c.Looks vmid) :
    Only (Cmd.Looks vmid) (Fallible.issue (S := sig) c f).run := only_issue h f

theorem at_issue {α : Type} {c : Cmd} {f : sig.Ans c → Result α} (h : c.At vmid) :
    Only (Cmd.At vmid) (Fallible.issue (S := sig) c f).run := only_issue h f

theorem watches_report (msg : Text) : Only (Cmd.Watches vmid) (report msg).run := watches_issue trivial

theorem at_report (msg : Text) : Only (Cmd.At vmid) (report msg).run :=
  at_of_looks (looks_of_watches (watches_report msg))

theorem looks_exec (script : Text) : Only (Cmd.Looks vmid) (exec vmid script).run := by
  refine only_bind (looks_issue rfl) fun out => ?_
  split_ifs
  · exact only_ofExcept _
  · exact only_pure _

theorem looks_ensureLayout (owners : List (Text × Text)) :
    Only (Cmd.Looks vmid) (ensureLayout vmid owners).run :=
  only_bind (looks_exec _) fun _ => only_pure _

theorem watches_ensureDocker : Only (Cmd.Watches vmid) (ensureDocker vmid).run := by
  refine only_bind (watches_issue rfl) fun status => ?_
  split_ifs
  · exact only_pure _
  · refine only_bind (only_attempt (watches_issue rfl)) fun r => ?_
    cases r with
    | ok a => exact only_pure _
    | error e => exact only_ofExcept _

theorem watches_wantsStart (hg : g.vmid = vmid) (o : Options) (current : Option Text) :
    Only (Cmd.Watches vmid) (wantsStart g o current).run := by
  unfold wantsStart
  split_ifs
  · exact only_pure _
  · exact only_bind (watches_issue hg) fun _ => only_pure _
  · exact only_pure _
  · exact only_pure _

theorem looks_passthrough (args : List Text) :
    Only (Cmd.Looks vmid) (passthrough vmid args).run := by
  refine only_bind (looks_issue rfl) fun out => ?_
  split_ifs
  · exact only_ofExcept _
  · exact only_pure _

/-! ### Loading -/

theorem readConfig_gives {node : Text} :
    Gives (readConfig node vmid) fun config => config.vmid = vmid := by
  refine gives_bind gives_true fun v _ => ?_
  cases v with
  | none => exact gives_ofExcept fun config h => absurd h bail_ne_ok
  | some conf => exact gives_ofExcept fun config h => (parseConfig_ok h).vmid

theorem watches_readConfig {node : Text} : Only (Cmd.Watches vmid) (readConfig node vmid).run := by
  refine only_bind (watches_issue rfl) fun v => ?_
  cases v with
  | none => exact only_ofExcept _
  | some conf => exact only_ofExcept _

theorem loadWith_gives {read : Read} (h : read.vmid = vmid) :
    Gives (loadWith ctx read) fun g => g.vmid = vmid ∧ g.read = read := by
  refine gives_bind readConfig_gives fun config hconfig => ?_
  exact gives_bind gives_true fun _ _ => gives_pure ⟨hconfig.trans h, rfl⟩

theorem watches_loadWith {read : Read} (h : read.vmid = vmid) :
    Only (Cmd.Watches vmid) (loadWith ctx read).run :=
  h ▸ only_bind watches_readConfig fun _ => only_bind (only_ofExcept _) fun _ => only_pure _

theorem readDoc_gives :
    Gives (readDoc x vmid) fun r => ∀ read, r = some read → read.vmid = vmid := by
  refine gives_issue fun r a h => ?_
  obtain ⟨out, rfl, hout⟩ := bind_eq_ok.mp h
  rintro read rfl
  exact (decoded_of_readOutput hout).vmid

theorem load_gives : Gives (load x ctx vmid) fun g => g.vmid = vmid := by
  refine gives_bind readDoc_gives fun r hr => ?_
  cases r with
  | none => exact gives_ofExcept fun g h => absurd h bail_ne_ok
  | some read => exact wp_ends_mono (loadWith_gives (hr read rfl)) (fun _ _ h => h.1) fun _ _ h => h

theorem watches_load : Only (Cmd.Watches vmid) (load x ctx vmid).run := by
  refine only_bind_gives (watches_issue rfl) readDoc_gives fun r hr => ?_
  cases r with
  | none => exact only_ofExcept _
  | some read => exact watches_loadWith (hr read rfl)

theorem looks_load : Only (Cmd.Looks vmid) (load x ctx vmid).run := looks_of_watches watches_load

theorem refreshConfig_gives (hg : g.vmid = vmid) : Gives (refreshConfig ctx g) fun g' =>
    g'.vmid = vmid ∧ g'.read = g.read ∧ g'.volumes = g.volumes :=
  gives_bind readConfig_gives fun _ h => gives_pure ⟨h.trans hg, rfl, rfl⟩

theorem watches_refreshConfig (hg : g.vmid = vmid) :
    Only (Cmd.Watches vmid) (refreshConfig ctx g).run :=
  hg ▸ only_bind watches_readConfig fun _ => only_pure _

/-! ### The halves -/

/-- A pct half says things, and calls what its plan calls. -/
theorem only_pctApplyGuest_of {K : Cmd → Prop} (hsay : ∀ msg, K (.report msg))
    (hcall : ∀ p, pctPlan ctx g = .ok p → ∀ oc ∈ execute g.config p, K (.pct g.vmid oc.1 oc.2)) :
    Only K (pctApplyGuest ctx g).run := by
  have hreport : ∀ msg, Only K (report msg).run := fun msg => only_issue (hsay msg) _
  rw [pctApplyGuest]
  refine only_ofExcept_bind fun p hp => ?_
  refine only_bind (only_forEach fun n _ => hreport _) fun _ => ?_
  split_ifs
  · exact only_bind (hreport _) fun _ => only_pure _
  · refine only_bind (hreport _) fun _ => ?_
    refine only_bind (only_attempt (only_forEach fun oc hoc => ?_)) fun r => ?_
    · exact only_bind (hreport _) fun _ => only_issue (hcall p hp oc hoc) _
    · cases r with
      | error e =>
        dsimp only
        split_ifs
        · exact only_bind (hreport _) fun _ => only_throw _
        · exact only_throw _
      | ok u =>
        dsimp only
        split_ifs
        · exact only_ofExcept _
        · exact only_pure _

theorem at_pctApplyGuest (hg : g.vmid = vmid) : Only (Cmd.At vmid) (pctApplyGuest ctx g).run :=
  only_pctApplyGuest_of (fun _ => trivial) fun _ _ _ _ => hg

theorem at_startStack (hg : g.vmid = vmid) (o : Options) (start : Bool) :
    Only (Cmd.At vmid) (startStack g o start).run := by
  have hup : Only (Cmd.At vmid) (do report "docker: up"; .issue (.up g.vmid) id : M Unit).run :=
    only_bind (at_report _) fun _ => at_issue hg
  unfold startStack
  split_ifs
  · exact only_bind (at_report _) fun _ => only_bind (at_issue hg) fun _ => hup
  · exact hup
  · exact at_report _
  · exact at_report _

theorem at_dockerApplyGuest (hg : g.vmid = vmid) (o : Options) :
    Only (Cmd.At vmid) (dockerApplyGuest x ctx g o).run := by
  rw [dockerApplyGuest, hg]
  refine only_bind (at_of_looks (looks_of_watches watches_ensureDocker)) fun _ => ?_
  refine only_bind (at_of_looks (looks_ensureLayout _)) fun _ => ?_
  refine only_bind (only_ofExcept _) fun text => ?_
  refine only_bind (at_issue rfl) fun current => ?_
  refine only_bind (at_of_looks (looks_of_watches (watches_wantsStart hg o current))) fun start =>
    only_bind ?_ fun _ => ?_
  · unfold putCompose
    split_ifs
    · exact only_bind (at_report _) fun _ => at_issue hg
    · exact only_pure _
  · refine only_bind (at_startStack hg o start) fun _ => ?_
    refine only_bind (at_issue rfl) fun previous => ⟨trivial, fun _ => ?_⟩
    exact ⟨rfl, fun r => only_bind (only_ofExcept r) fun _ => only_pure _⟩

theorem pctHalf_gives (hg : g.vmid = vmid) :
    Gives (pctHalf ctx g) fun g' =>
      g'.vmid = vmid ∧ g'.read = g.read ∧ g'.volumes = g.volumes := by
  unfold pctHalf
  split_ifs
  · refine gives_bind gives_true fun n _ => ?_
    split_ifs
    · exact gives_bind gives_true fun _ _ => refreshConfig_gives hg
    · exact gives_pure ⟨hg, rfl, rfl⟩
  · exact gives_pure ⟨hg, rfl, rfl⟩

/-- The pct half of an attempt: nothing but looks, where it is not allowed. -/
theorem only_pctHalf_of {K : Cmd → Prop} (hg : g.vmid = vmid) (hlooks : ∀ c, c.Watches vmid → K c)
    (hcall : g.read.doc.policy.pct = .auto → ∀ p, pctPlan ctx g = .ok p →
      ∀ oc ∈ execute g.config p, K (.pct g.vmid oc.1 oc.2)) : Only K (pctHalf ctx g).run := by
  unfold pctHalf
  split_ifs with hauto
  · refine only_bind (only_pctApplyGuest_of (fun _ => hlooks _ trivial) (hcall hauto)) fun n => ?_
    split_ifs
    · exact only_bind (only_mono (show Only (Cmd.Watches vmid) _ from watches_report _) hlooks) fun _ =>
        only_mono (watches_refreshConfig hg) hlooks
    · exact only_pure _
  · exact only_pure _

theorem at_pctHalf (hg : g.vmid = vmid) : Only (Cmd.At vmid) (pctHalf ctx g).run :=
  only_pctHalf_of hg (fun _ h => h.looks.at) fun _ _ _ _ _ => hg

theorem at_dockerHalf (hg : g.vmid = vmid) : Only (Cmd.At vmid) (dockerHalf x ctx g).run := by
  refine only_bind (at_issue hg) fun facts => ?_
  dsimp only
  split_ifs
  · exact only_bind (at_dockerApplyGuest hg _) fun _ => at_report _
  · exact only_pure _

/-! ### Hand-run verbs -/

theorem at_docker_rest (o : Options) : Only (Cmd.At vmid) (do
    let g ← load x ctx vmid
    let _ ← dockerApplyGuest x ctx g o
    pure () : M Unit).run :=
  only_bind_gives (at_of_looks looks_load) load_gives fun _ hg =>
    only_bind (at_dockerApplyGuest hg o) fun _ => only_pure _

theorem at_apply_rest (o : Options) : Only (Cmd.At vmid) (do
    let g ← load x ctx vmid
    let changed ← pctApplyGuest ctx g
    let g ← refreshIfChanged ctx g changed
    let _ ← dockerApplyGuest x ctx g o
    pure () : M Unit).run := by
  refine only_bind_gives (at_of_looks looks_load) load_gives fun g hg => ?_
  refine only_bind (at_pctApplyGuest hg) fun changed => ?_
  refine only_bind_gives (Q := fun g' => g'.vmid = vmid) ?_ ?_ fun g' hg' =>
    only_bind (at_dockerApplyGuest hg' o) fun _ => only_pure _
  · unfold refreshIfChanged
    split_ifs
    · exact at_of_looks (looks_of_watches (watches_refreshConfig hg))
    · exact only_pure _
  · unfold refreshIfChanged
    split_ifs
    · exact wp_ends_mono (refreshConfig_gives hg) (fun _ _ h => h.1) fun _ _ h => h
    · exact gives_pure hg

/-! ### The rule of a hand-run verb -/

section Rule

variable {σ : Type} {W : World sig σ} {I : σ → Cmd → Prop} {P N : σ → Prop} {s : σ}

/-- What a world keeps along a session of a hand-run verb: `P` from the lock on, and `N` once the
guest was seen running. -/
structure Sessions (W : World sig σ) (I : σ → Cmd → Prop) (node : Text) (vmid : ℕ) (P N : σ → Prop) :
    Prop where
  locked : ∀ {s s'}, W.reply s (.lock vmid 60) (.ok ()) s' → P s'
  looked : ∀ {s r s'}, P s → W.reply s (.status node vmid) r s' → P s'
  seen : ∀ {s s'}, P s → W.reply s (.status node vmid) (.ok .running) s' → N s'
  keeps : ∀ {s c r s'}, c.At vmid → N s → W.reply s c r s' → N s'
  held : ∀ {s}, N s → P s
  lock : ∀ s, I s (.lock vmid 60)
  status : ∀ {s}, P s → I s (.status node vmid)
  within : ∀ {s c}, c.At vmid → N s → I s c
  unlock : ∀ {s}, P s → I s (.unlock vmid)

theorem Sessions.wp_locked {α : Type} {rest : M α} (h : Sessions W I ctx.node vmid P N)
    (hrest : Only (Cmd.At vmid) rest.run) :
    wp W I (withLock vmid do
      requireRunning ctx vmid
      rest).run (fun _ _ => True) s := by
  rw [← ends_eta fun _ _ => True, withLock, wp_bind, wp_issue]
  refine ⟨h.lock s, fun r s₁ hr => ?_⟩
  cases r with
  | error e => trivial
  | ok u =>
    show wp W I (Fallible.run _) _ _
    rw [wp_bind, wp_attempt]
    have hbody : wp W I (do
        requireRunning ctx vmid
        rest : M α).run (Ends (fun _ => P) fun _ => P) s₁ := by
      have hs₁ := h.locked hr
      rw [requireRunning, wp_bind, wp_bind, wp_issue]
      refine ⟨h.status hs₁, fun r s₂ hr₂ => ?_⟩
      have hs₂ := h.looked hs₁ hr₂
      cases r with
      | error e => exact hs₂
      | ok status =>
        cases status with
        | stopped => exact hs₂
        | other => exact hs₂
        | running =>
          have hwithin := wp_only (W := W) (I := I) (P := N) hrest
            (fun s c r s' hc hs hr => h.keeps hc hs hr) (fun s c hc hs => h.within hc hs)
            (h.seen hs₁ hr₂)
          show wp W I rest.run (Ends (fun _ => P) fun _ => P) s₂
          refine wp_mono hwithin fun r s₃ hs₃ => ?_
          cases r with
          | ok a => exact h.held hs₃
          | error e => exact h.held hs₃
    refine wp_mono hbody fun r s₂ hs₂ => ?_
    have hs₂' : P s₂ := by
      cases r with
      | ok a => exact hs₂
      | error e => exact hs₂
    rw [wp_bind, wp_issue]
    exact ⟨h.unlock hs₂', fun _ _ _ => by cases r <;> trivial⟩

/-- **Every hand-run verb (proved).** -/
theorem Sessions.wp_verb (h : Sessions W I ctx.node vmid P N) (verb : Verb) :
    wp W I (verb.run x ctx vmid).run (fun _ _ => True) s := by
  cases verb with
  | pctApply =>
    rw [← ends_eta fun _ _ => True]
    refine wp_bind_inv (P := fun _ => True) (h.wp_locked ?_) (fun _ _ _ => trivial) fun _ _ _ => trivial
    exact only_bind_gives (at_of_looks looks_load) load_gives fun g hg => at_pctApplyGuest hg
  | dockerApply o => exact h.wp_locked (at_docker_rest o)
  | dockerUpgrade o => exact h.wp_locked (at_docker_rest o)
  | apply o => exact h.wp_locked (at_apply_rest o)
  | upgrade o => exact h.wp_locked (at_apply_rest o)
  | compose args => exact h.wp_locked (at_of_looks (looks_passthrough args))

end Rule

end At

end PveCompose
