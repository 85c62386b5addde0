import PveCompose.Daemon
import PveCompose.Pve

/-!
# The node the verbs run on

`Node` is what the modelled verbs read and write: the store's documents and token, the config file,
each container's config, and in each guest the compose file and the facts.  `Effect` says what a
command does to it.  A command that fails has changed nothing, or all that it was asked to change.
-/

namespace PveCompose

open Programs

structure Node where
  /-- The `compose` subtree of each guest's document. -/
  docs : ℕ → Option Text
  token : Text
  file : FileRead
  conf : ℕ → PveConfig
  compose : ℕ → Option Text
  facts : ℕ → Option Facts
  /-- What the compose file was when the facts were last written: a history variable. -/
  recorded : ℕ → Option Text

namespace Node

def setConf (s : Node) (vmid : ℕ) (conf : PveConfig) : Node :=
  { s with conf := Function.update s.conf vmid conf }

def setCompose (s : Node) (vmid : ℕ) (text : Text) : Node :=
  { s with compose := Function.update s.compose vmid (some text) }

def setFacts (s : Node) (vmid : ℕ) (facts : Facts) : Node :=
  { s with
    facts := Function.update s.facts vmid (some facts)
    recorded := Function.update s.recorded vmid (s.compose vmid) }

/-- A document is written, and the store's token moves. -/
def write (s : Node) (vmid : ℕ) (doc token : Text) : Node :=
  { s with docs := Function.update s.docs vmid (some doc), token := token }

end Node

/-- What a command does, for each answer it may get. -/
def Effect (s : Node) : (c : Cmd) → c.Answer → Node → Prop
  | .version, r, s' => s' = s ∧ ∀ t, r = .ok t → t.getD [] = s.token
  | .loadConfig, r, s' => s' = s ∧ r = s.file
  | .metaGet v, r, s' => s' = s ∧ ∀ out, r = .ok out →
      (out.status = 0 → s.docs v = some out.stdout) ∧ (out.status = 2 → s.docs v = none)
  | .config _ v, r, s' => s' = s ∧ ∀ a, r = .ok a → a = some (s.conf v)
  | .readCompose v, r, s' => s' = s ∧ ∀ a, r = .ok a → a = s.compose v
  | .readFacts v, r, s' => s' = s ∧ ∀ a, r = .ok a → a = s.facts v
  | .writeCompose v text, r, s' => s' = s.setCompose v text ∨ s' = s ∧ ∀ u, r ≠ .ok u
  | .writeFacts v facts, r, s' => s' = s.setFacts v facts ∨ s' = s ∧ ∀ u, r ≠ .ok u
  | .pct v op call, r, s' =>
      (∃ conf', Performs AllocatedAs (s.conf v) conf' op call ∧ s' = s.setConf v conf') ∨
        s' = s ∧ ∀ u, r ≠ .ok u
  | _, _, s' => s' = s

def nodeWorld : World sig Node := ⟨Effect⟩

@[simp] theorem nodeWorld_reply : nodeWorld.reply = Effect := rfl

/-! ### Commands that only look -/

/-- The commands that are issued inside a lock and change nothing that is modelled. -/
def Cmd.Plain : Cmd → Prop
  | .wallClock | .notify _ | .report _ | .status _ _ | .config _ _ | .dockerInfo _
  | .dockerInstall _ | .exec _ _ | .ps _ | .readCompose _ | .readFacts _ | .pull _ => True
  | _ => False

theorem eq_of_plain {s s' : Node} {c : Cmd} {r : c.Answer} (hc : c.Plain) (h : Effect s c r s') :
    s' = s := by
  cases c with
  | config _ _ => exact h.1
  | readCompose _ => exact h.1
  | readFacts _ => exact h.1
  | wallClock => exact h
  | notify _ => exact h
  | report _ => exact h
  | status _ _ => exact h
  | dockerInfo _ => exact h
  | dockerInstall _ => exact h
  | exec _ _ => exact h
  | ps _ => exact h
  | pull _ => exact h
  | _ => exact hc.elim

/-- A program that only looks leaves the node as it is. -/
theorem wp_plain {α : Type} {I : Node → Cmd → Prop} {p : M α} {Q : α → Node → Prop}
    {E : Error → Node → Prop} {s : Node} (h : Only Cmd.Plain p.run)
    (hI : ∀ s c, c.Plain → I s c) (hQ : ∀ a, Q a s) (hE : ∀ e, E e s) :
    wp nodeWorld I p.run (Ends Q E) s := by
  refine wp_mono (wp_only h (P := (· = s)) (fun s₁ c r s₂ hc hs hr => ?_) (fun s c hc _ => hI s c hc)
    rfl) fun r s' hs => ?_
  · exact (eq_of_plain hc hr).trans hs
  · subst hs
    cases r with
    | ok a => exact hQ a
    | error e => exact hE e

theorem wp_plain_bind {α β : Type} {I : Node → Cmd → Prop} {p : M α} {f : α → M β}
    {Q : β → Node → Prop} {E : Error → Node → Prop} {s : Node} (h : Only Cmd.Plain p.run)
    (hI : ∀ s c, c.Plain → I s c) (hf : ∀ a, wp nodeWorld I (f a).run (Ends Q E) s)
    (hE : ∀ e, E e s) : wp nodeWorld I (p >>= f).run (Ends Q E) s := by
  rw [wp_bind]
  exact wp_plain h hI hf hE

theorem plain_report (msg : Text) : Only Cmd.Plain (report msg).run := only_issue trivial _

theorem plain_exec (vmid : ℕ) (script : Text) : Only Cmd.Plain (exec vmid script).run := by
  refine only_bind (only_issue trivial _) fun out => ?_
  split_ifs
  · exact only_ofExcept _
  · exact only_pure _

theorem plain_ensureLayout (vmid : ℕ) (owners : List (Text × Text)) :
    Only Cmd.Plain (ensureLayout vmid owners).run :=
  only_bind (plain_exec _ _) fun _ => only_pure _

theorem plain_ensureDocker (vmid : ℕ) : Only Cmd.Plain (ensureDocker vmid).run := by
  refine only_bind (only_issue trivial _) fun status => ?_
  split_ifs
  · exact only_pure _
  · refine only_bind (only_attempt (only_issue trivial _)) fun r => ?_
    cases r with
    | ok a => exact only_pure _
    | error e => exact only_ofExcept _

theorem plain_wantsStart (g : Guest) (o : Options) (current : Option Text) :
    Only Cmd.Plain (wantsStart g o current).run := by
  unfold wantsStart
  split_ifs
  · exact only_pure _
  · exact only_bind (only_issue trivial _) fun _ => only_pure _
  · exact only_pure _
  · exact only_pure _

theorem plain_requireRunning (ctx : Ctx) (vmid : ℕ) :
    Only Cmd.Plain (requireRunning ctx vmid).run := by
  refine only_bind (only_issue trivial _) fun status => ?_
  cases status with
  | running => exact only_pure _
  | stopped => exact only_ofExcept _
  | other => exact only_ofExcept _

/-- **The lock (proved)**: what is inside ends as it would by itself, or is not begun. -/
theorem wp_withLock {α : Type} {I : Node → Cmd → Prop} {vmid : ℕ} {body : M α}
    {Q : Result α → Node → Prop} {s : Node} (hlock : I s (.lock vmid 60))
    (hunlock : ∀ s, I s (.unlock vmid)) (h : wp nodeWorld I body.run Q s)
    (hfail : ∀ e, Q (.error e) s) : wp nodeWorld I (withLock vmid body).run Q s := by
  rw [← ends_eta Q, withLock, wp_bind, wp_issue]
  refine ⟨hlock, fun r s' hs' => ?_⟩
  subst hs'
  cases r with
  | error e => exact hfail e
  | ok u =>
    show wp nodeWorld I (Fallible.run _) _ _
    rw [wp_bind, wp_attempt]
    refine wp_mono h fun r s₁ hr => ?_
    rw [wp_bind, wp_issue]
    refine ⟨hunlock s₁, fun u s₂ hs₂ => ?_⟩
    subst hs₂
    rw [ends_ok, wp_ofExcept, ends_eta]
    exact hr

/-! ### Loading a guest -/

/-- `read` is what the store's answer says, and the code accepts it. -/
structure Decoded (x : External) (vmid : ℕ) (out : Output) (read : Read) : Prop where
  status : out.status = 0
  vmid : read.vmid = vmid
  text : read.text = out.stdout
  digest : read.digest = x.digest read.text
  doc : parse x.docFromYaml read.text = .ok read.doc

theorem decoded_of_readOutput {x : External} {vmid : ℕ} {out : Output} {read : Read}
    (h : readOutput x vmid out = .ok (some read)) : Decoded x vmid out read := by
  unfold readOutput at h
  split_ifs at h with h0 h2
  · obtain ⟨doc, hdoc, h⟩ := bind_eq_ok.mp h
    cases h
    exact ⟨h0, rfl, rfl, rfl, withContext_eq_ok.mp hdoc⟩
  · cases h
  · exact absurd h bail_ne_ok

theorem readOutput_ok {x : External} {vmid : ℕ} {out : Output} {doc : Doc} (h : out.status = 0)
    (hdoc : parse x.docFromYaml out.stdout = .ok doc) :
    readOutput x vmid out
      = .ok (some { vmid, text := out.stdout, digest := x.digest out.stdout, doc }) := by
  rw [readOutput, if_pos h, hdoc]
  rfl

/-- `read` is the document of the guest as the store has it, and the code accepts it. -/
structure ReadNow (x : External) (s : Node) (read : Read) : Prop where
  text : s.docs read.vmid = some read.text
  digest : read.digest = x.digest read.text
  doc : parse x.docFromYaml read.text = .ok read.doc

/-- `g` is the guest as its config, and the document it was loaded for, have it. -/
structure LoadedNow (ctx : Ctx) (s : Node) (g : Guest) : Prop where
  config : parseConfig g.read.vmid (s.conf g.read.vmid) = .ok g.config
  volumes : volumes g.read.doc.spec ctx.limits = .ok g.volumes

theorem LoadedNow.vmid {ctx : Ctx} {s : Node} {g : Guest} (h : LoadedNow ctx s g) :
    g.vmid = g.read.vmid :=
  (parseConfig_ok h.config).vmid

/-- `g` is the guest loaded for the document `text`. -/
structure LoadedFrom (x : External) (ctx : Ctx) (host : Option Text) (vmid : ℕ) (text : Text)
    (g : Guest) : Prop where
  vmid : g.config.vmid = vmid
  hostname : g.config.hostname = host
  digest : g.read.digest = x.digest text
  doc : parse x.docFromYaml text = .ok g.read.doc
  volumes : volumes g.read.doc.spec ctx.limits = .ok g.volumes

/-- What a guest should have depends on its document, the hostname and the config alone. -/
theorem renderGuest_eq {x : External} {ctx : Ctx} {host : Option Text} {vmid : ℕ} {text : Text}
    {g g' : Guest} (h : LoadedFrom x ctx host vmid text g) (h' : LoadedFrom x ctx host vmid text g') :
    renderGuest x ctx g = renderGuest x ctx g' := by
  have hdoc : g.read.doc = g'.read.doc := Except.ok.inj (h.doc.symm.trans h'.doc)
  have hvols : g.volumes = g'.volumes := by
    have hv := h.volumes
    rw [hdoc, h'.volumes] at hv
    exact (Except.ok.inj hv).symm
  unfold renderGuest vars Guest.project Guest.owner Guest.vmid
  rw [hdoc, hvols, h.vmid, h'.vmid, h.hostname, h'.hostname]

section

variable {x : External} {ctx : Ctx} {I : Node → Cmd → Prop} {s : Node}

theorem wp_readConfig {node : Text} {vmid : ℕ} (hI : ∀ s c, (∀ v, c ≠ .up v) → I s c) :
    wp nodeWorld I (readConfig node vmid).run
      (Ends (fun g s' => s' = s ∧ parseConfig vmid (s.conf vmid) = .ok g) fun _ s' => s' = s) s := by
  rw [readConfig, wp_bind, wp_issue]
  refine ⟨hI _ _ nofun, fun r s' hs' => ?_⟩
  obtain ⟨rfl, hr⟩ := hs'
  cases r with
  | error e => exact rfl
  | ok a =>
    obtain rfl := hr a rfl
    show Ends _ _ (parseConfig vmid (s'.conf vmid)) s'
    cases hp : parseConfig vmid (s'.conf vmid) with
    | error e => exact rfl
    | ok g => exact ⟨rfl, rfl⟩

theorem wp_readDoc {vmid : ℕ} (hI : ∀ s c, (∀ v, c ≠ .up v) → I s c) :
    wp nodeWorld I (readDoc x vmid).run
      (Ends (fun r s' => s' = s ∧ ∀ read, r = some read → read.vmid = vmid ∧ ReadNow x s read)
        fun _ s' => s' = s) s := by
  rw [readDoc, wp_issue]
  refine ⟨hI _ _ nofun, fun r s' hs' => ?_⟩
  obtain ⟨rfl, hr⟩ := hs'
  cases r with
  | error e => exact rfl
  | ok out =>
    show Ends _ _ (readOutput x vmid out) s'
    cases ho : readOutput x vmid out with
    | error e => exact rfl
    | ok a =>
      refine ⟨rfl, ?_⟩
      rintro read rfl
      have hd := decoded_of_readOutput ho
      refine ⟨hd.vmid, ?_, hd.digest, hd.doc⟩
      rw [hd.vmid, hd.text]
      exact (hr out rfl).1 hd.status

theorem wp_loadWith {read : Read} (hI : ∀ s c, (∀ v, c ≠ .up v) → I s c) :
    wp nodeWorld I (loadWith ctx read).run
      (Ends (fun g s' => s' = s ∧ g.read = read ∧ LoadedNow ctx s g) fun _ s' => s' = s) s := by
  rw [loadWith, wp_bind]
  refine wp_ends_mono (wp_readConfig hI) ?_ fun _ _ h => h
  rintro config s' ⟨rfl, hconfig⟩
  rw [wp_bind, wp_ofExcept]
  cases hv : withContext ("guest " ++ dec read.vmid ++ ": compose.spec")
      (volumes read.doc.spec ctx.limits) with
  | error e => exact rfl
  | ok vols => exact ⟨rfl, rfl, hconfig, withContext_eq_ok.mp hv⟩

theorem wp_load {vmid : ℕ} (hI : ∀ s c, (∀ v, c ≠ .up v) → I s c) :
    wp nodeWorld I (load x ctx vmid).run
      (Ends (fun g s' => s' = s ∧ g.read.vmid = vmid ∧ ReadNow x s g.read ∧ LoadedNow ctx s g)
        fun _ s' => s' = s) s := by
  rw [load, wp_bind]
  refine wp_ends_mono (wp_readDoc hI) ?_ fun _ _ h => h
  rintro r s' ⟨rfl, hr⟩
  cases r with
  | none => exact rfl
  | some read =>
    obtain ⟨hvmid, hread⟩ := hr read rfl
    refine wp_ends_mono (wp_loadWith hI) ?_ fun _ _ h => h
    rintro g s'' ⟨rfl, rfl, hg⟩
    exact ⟨rfl, hvmid, hread, hg⟩

end

/-! ### Loading a guest in any world -/

section

variable {σ : Type} {W : World sig σ} {I : σ → Cmd → Prop} {P : σ → Prop} {ctx : Ctx} {s : σ}

theorem wp_readConfig_any {node : Text} {vmid : ℕ}
    (hstep : ∀ s c r s', c.Plain → P s → W.reply s c r s' → P s')
    (hI : ∀ s c, c.Plain → P s → I s c) (hs : P s) :
    wp W I (readConfig node vmid).run (Ends (fun g s => P s ∧ g.vmid = vmid) fun _ => P) s := by
  rw [readConfig, wp_bind, wp_issue]
  refine ⟨hI _ _ trivial hs, fun r s' hr => ?_⟩
  have hs' := hstep s _ r s' trivial hs hr
  cases r with
  | error e => exact hs'
  | ok a =>
    cases a with
    | none => exact hs'
    | some conf =>
      show Ends _ _ (parseConfig vmid conf) s'
      cases hp : parseConfig vmid conf with
      | error e => exact hs'
      | ok g => exact ⟨hs', (parseConfig_ok hp).vmid⟩

theorem wp_loadWith_any {x : External} {vmid : ℕ} {out : Output} {read : Read}
    (hread : Decoded x vmid out read)
    (hstep : ∀ s c r s', c.Plain → P s → W.reply s c r s' → P s')
    (hI : ∀ s c, c.Plain → P s → I s c) (hs : P s) :
    wp W I (loadWith ctx read).run (Ends (fun g s => P s ∧ g.read = read ∧
      LoadedFrom x ctx g.config.hostname vmid read.text g) fun _ => P) s := by
  rw [loadWith, wp_bind]
  refine wp_ends_mono (wp_readConfig_any hstep hI hs) ?_ fun _ _ h => h
  rintro config s' ⟨hs', hvmid⟩
  rw [wp_bind, wp_ofExcept]
  cases hv : withContext ("guest " ++ dec read.vmid ++ ": compose.spec")
      (volumes read.doc.spec ctx.limits) with
  | error e => exact hs'
  | ok vols =>
    exact ⟨hs', rfl, hvmid.trans hread.vmid, rfl, hread.digest, hread.doc, withContext_eq_ok.mp hv⟩

/-- The guest with its config read again is still one loaded for the document. -/
theorem wp_refreshConfig_any {x : External} {host : Option Text} {vmid : ℕ} {text : Text} {g : Guest}
    (hg : LoadedFrom x ctx host vmid text g)
    (hstep : ∀ s c r s', c.Plain → P s → W.reply s c r s' → P s')
    (hI : ∀ s c, c.Plain → P s → I s c) (hs : P s) :
    wp W I (refreshConfig ctx g).run (Ends (fun g' s => P s ∧
      LoadedFrom x ctx g'.config.hostname vmid text g') fun _ => P) s := by
  rw [refreshConfig, wp_bind]
  refine wp_ends_mono (wp_readConfig_any hstep hI hs) ?_ fun _ _ h => h
  rintro config s' ⟨hs', hvmid⟩
  exact ⟨hs', hvmid.trans hg.vmid, rfl, hg.digest, hg.doc, hg.volumes⟩

end

/-! ### The pct half -/

/-- The commands of a pct half on the guest. -/
def Cmd.OfPct (vmid : ℕ) (c : Cmd) : Prop := c.Plain ∨ ∃ op call, c = .pct vmid op call

/-- **The pct half, in any world (proved)**: it changes nothing but by the calls of its plan. -/
theorem only_pctApplyGuest (ctx : Ctx) (g : Guest) :
    Only (Cmd.OfPct g.vmid) (pctApplyGuest ctx g).run := by
  have hplain : ∀ {α : Type} {p : Prog sig α}, Only Cmd.Plain p → Only (Cmd.OfPct g.vmid) p :=
    fun h => only_mono h fun _ => .inl
  rw [pctApplyGuest]
  refine only_ofExcept_bind fun p _ => ?_
  refine only_bind (only_forEach fun n _ => hplain (plain_report _)) fun _ => ?_
  split_ifs
  · exact only_bind (hplain (plain_report _)) fun _ => only_pure _
  · refine only_bind (hplain (plain_report _)) fun _ => ?_
    refine only_bind (only_attempt (only_forEach fun oc _ => ?_)) fun r => ?_
    · exact only_bind (hplain (plain_report _)) fun _ => only_issue (.inr ⟨_, _, rfl⟩) _
    · cases r with
      | error e =>
        dsimp only
        split_ifs
        · exact only_bind (hplain (plain_report _)) fun _ => only_throw _
        · exact only_throw _
      | ok u =>
        dsimp only
        split_ifs
        · exact only_ofExcept _
        · exact only_pure _

theorem Node.setConf_eq_self (s : Node) (vmid : ℕ) : s.setConf vmid (s.conf vmid) = s := by
  rw [Node.setConf, Function.update_eq_self]

@[simp] theorem Node.setConf_conf (s : Node) (vmid : ℕ) (conf : PveConfig) :
    (s.setConf vmid conf).conf vmid = conf :=
  Function.update_self _ _ _

theorem Node.setConf_setConf (s : Node) (vmid : ℕ) (conf conf' : PveConfig) :
    (s.setConf vmid conf).setConf vmid conf' = s.setConf vmid conf' := by
  simp [Node.setConf]

theorem PerformsAll.concat {alloc : Alloc} {conf conf₁ conf' : PveConfig} {op : Op} {call : Call}
    {steps : List (Op × Call)} (h : PerformsAll alloc conf steps conf₁)
    (hp : Performs alloc conf₁ conf' op call) :
    PerformsAll alloc conf (steps ++ [(op, call)]) conf' := by
  induction h with
  | nil => exact .cons hp .nil
  | cons h' _ ih => exact .cons h' (ih hp)

section

variable {ctx : Ctx} {I : Node → Cmd → Prop} {s : Node}

/-- **The calls of a plan (proved)**: when the last one succeeds, all were performed. -/
theorem wp_executePlan {g : GuestConfig} {p : Plan} (hI : ∀ s c, (∀ v, c ≠ .up v) → I s c) :
    wp nodeWorld I (executePlan g p).run
      (Ends (fun _ s' => ∃ conf', PerformsAll AllocatedAs (s.conf g.vmid) (execute g p) conf' ∧
        s' = s.setConf g.vmid conf') fun _ _ => True) s := by
  refine wp_forEach _ (fun done _ s' => ∃ conf', PerformsAll AllocatedAs (s.conf g.vmid) done conf' ∧
    s' = s.setConf g.vmid conf') ?_ _ [] s ⟨s.conf g.vmid, .nil, (s.setConf_eq_self _).symm⟩
  rintro done ⟨op, call⟩ rest _ ⟨conf₁, hdone, rfl⟩
  refine wp_plain_bind (plain_report _) (fun s c hc => hI s c ?_) (fun _ => ?_) fun _ => trivial
  · rintro v rfl
    exact hc
  rw [wp_issue]
  refine ⟨hI _ _ nofun, fun r s' hs' => ?_⟩
  cases r with
  | error e => exact trivial
  | ok u =>
    rcases hs' with ⟨conf', hp, rfl⟩ | ⟨-, hfail⟩
    · rw [Node.setConf_conf] at hp
      exact ⟨conf', hdone.concat hp, s.setConf_setConf _ _ _⟩
    · exact absurd rfl (hfail u)

/-- **The pct half (proved)**: when it ends well, it counts the operations of the plan, and all of
them were performed. -/
theorem wp_pctApplyGuest {g : Guest} (hI : ∀ s c, (∀ v, c ≠ .up v) → I s c) :
    wp nodeWorld I (pctApplyGuest ctx g).run
      (Ends (fun n s' => ∃ p conf', pctPlan ctx g = .ok p ∧ n = p.ops.length ∧
        PerformsAll AllocatedAs (s.conf g.vmid) (execute g.config p) conf' ∧
          s' = s.setConf g.vmid conf') fun _ _ => True) s := by
  have hplain : ∀ s c, c.Plain → I s c := fun s c hc => hI s c (by
    rintro v rfl
    exact hc)
  rw [pctApplyGuest, wp_bind, wp_ofExcept]
  cases hp : pctPlan ctx g with
  | error e => exact trivial
  | ok p =>
    rw [ends_ok]
    refine wp_plain_bind (only_forEach fun n _ => plain_report _) hplain (fun _ => ?_)
      fun _ => trivial
    split_ifs with hops
    · refine wp_plain_bind (plain_report _) hplain (fun _ => ?_) fun _ => trivial
      rw [wp_pure]
      refine ⟨p, s.conf g.vmid, rfl, by simp [hops], ?_, (s.setConf_eq_self _).symm⟩
      rw [execute, hops]
      exact .nil
    · refine wp_plain_bind (plain_report _) hplain (fun _ => ?_) fun _ => trivial
      rw [wp_bind, wp_attempt]
      refine wp_mono (wp_executePlan hI) fun r s' hr => ?_
      cases r with
      | error e =>
        show wp nodeWorld I (Fallible.run _) _ s'
        dsimp only
        split_ifs
        · exact wp_plain_bind (plain_report _) hplain (fun _ => trivial) fun _ => trivial
        · exact trivial
      | ok u =>
        obtain ⟨conf', hall, rfl⟩ := hr
        show wp nodeWorld I (Fallible.run _) _ _
        dsimp only
        split_ifs
        · exact trivial
        · exact ⟨p, conf', rfl, rfl, hall, rfl⟩

end

/-! ### The docker half -/

/-- A plain command, or bringing the stack up. -/
def Cmd.PlainOrUp (vmid : ℕ) (c : Cmd) : Prop := c.Plain ∨ c = .up vmid

theorem only_startStack (g : Guest) (o : Options) (start : Bool) :
    Only (Cmd.PlainOrUp g.vmid) (startStack g o start).run := by
  have hup : Only (Cmd.PlainOrUp g.vmid)
      (do report "docker: up"; .issue (.up g.vmid) id : M Unit).run :=
    only_bind (only_issue (.inl trivial) _) fun _ => only_issue (.inr rfl) _
  unfold startStack
  split_ifs with hs hp
  · exact only_bind (only_issue (.inl trivial) _) fun _ =>
      only_bind (only_issue (.inl trivial) _) fun _ => hup
  · exact hup
  · exact only_issue (.inl trivial) _
  · exact only_issue (.inl trivial) _

theorem wp_startStack {I : Node → Cmd → Prop} {g : Guest} {o : Options} {start : Bool}
    {Q : Unit → Node → Prop} {E : Error → Node → Prop} {s : Node} (hI : ∀ s c, c.Plain → I s c)
    (hup : I s (.up g.vmid)) (hQ : Q () s) (hE : ∀ e, E e s) :
    wp nodeWorld I (startStack g o start).run (Ends Q E) s := by
  refine wp_mono (wp_only (only_startStack g o start) (P := (· = s)) ?_ ?_ rfl) fun r s' hs => ?_
  · rintro s₁ c r s₂ (hc | rfl) hs hr
    · exact (eq_of_plain hc hr).trans hs
    · exact Eq.trans hr hs
  · rintro s₁ c (hc | rfl) hs
    · exact hI s₁ c hc
    · exact hs ▸ hup
  · subst hs
    cases r with
    | ok a => exact hQ
    | error e => exact hE e

/-- The commands of a docker half. -/
inductive Cmd.OfDocker (x : External) (ctx : Ctx) (g : Guest) : Cmd → Prop where
  | plain {c : Cmd} : c.Plain → Cmd.OfDocker x ctx g c
  | up : Cmd.OfDocker x ctx g (.up g.vmid)
  | compose {text : Text} : renderGuest x ctx g = .ok text →
      Cmd.OfDocker x ctx g (.writeCompose g.vmid text)
  | facts {f : Facts} : f.digest = g.read.digest → Cmd.OfDocker x ctx g (.writeFacts g.vmid f)

/-- **The docker half, in any world (proved)**: it writes nothing but the render and facts that name
the document. -/
theorem only_dockerApplyGuest (x : External) (ctx : Ctx) (g : Guest) (o : Options) :
    Only (Cmd.OfDocker x ctx g) (dockerApplyGuest x ctx g o).run := by
  have hplain : ∀ {α : Type} {p : Prog sig α}, Only Cmd.Plain p → Only (Cmd.OfDocker x ctx g) p :=
    fun h => only_mono h fun _ => .plain
  rw [dockerApplyGuest]
  refine only_bind (hplain (plain_ensureDocker _)) fun _ => ?_
  refine only_bind (hplain (plain_ensureLayout _ _)) fun _ => ?_
  refine only_ofExcept_bind fun text htext => ?_
  refine only_bind (hplain (only_issue trivial _)) fun current => ?_
  refine only_bind (hplain (plain_wantsStart _ _ _)) fun start => ?_
  refine only_bind ?_ fun _ => only_bind (only_mono (only_startStack g o start) ?_) fun _ => ?_
  · unfold putCompose
    split_ifs
    · exact only_bind (hplain (plain_report _)) fun _ => only_issue (.compose htext) _
    · exact only_pure _
  · rintro c (hc | rfl)
    · exact .plain hc
    · exact .up
  · refine only_bind (hplain (only_issue trivial _)) fun previous => ⟨.plain trivial, fun _ => ?_⟩
    exact ⟨.facts rfl, fun r => only_bind (only_ofExcept r) fun _ => only_pure _⟩

/-- How a docker half may end, when it began in `s`. -/
inductive DockerEnd (x : External) (ctx : Ctx) (g : Guest) (s : Node) : Result Bool → Node → Prop where
  | untouched {e : Error} : DockerEnd x ctx g s (.error e) s
  | rendered {e : Error} {text : Text} : renderGuest x ctx g = .ok text →
      DockerEnd x ctx g s (.error e) (s.setCompose g.vmid text)
  | recorded {r : Result Bool} {text : Text} {f : Facts} : renderGuest x ctx g = .ok text →
      f.digest = g.read.digest →
      DockerEnd x ctx g s r ((s.setCompose g.vmid text).setFacts g.vmid f)

/-- Writing the file that is there changes nothing. -/
theorem Node.setCompose_eq_self {s : Node} {vmid : ℕ} {text : Text}
    (h : s.compose vmid = some text) : s.setCompose vmid text = s := by
  rw [Node.setCompose, ← h, Function.update_eq_self]

/-- **The docker half (proved)**: how it may end, and the state the stack is brought up in. -/
theorem wp_dockerApplyGuest {x : External} {ctx : Ctx} {g : Guest} {o : Options}
    {I : Node → Cmd → Prop} {s : Node}
    (hI : ∀ s c, (∀ v, c ≠ .up v) → I s c)
    (hup : ∀ text, renderGuest x ctx g = .ok text → I (s.setCompose g.vmid text) (.up g.vmid)) :
    wp nodeWorld I (dockerApplyGuest x ctx g o).run (DockerEnd x ctx g s) s := by
  have hplain : ∀ s c, c.Plain → I s c := fun s c hc => hI s c (by
    rintro v rfl
    exact hc)
  rw [← ends_eta (DockerEnd x ctx g s), dockerApplyGuest]
  refine wp_plain_bind (plain_ensureDocker _) hplain (fun _ => ?_) fun _ => .untouched
  refine wp_plain_bind (plain_ensureLayout _ _) hplain (fun _ => ?_) fun _ => .untouched
  rw [wp_bind, wp_ofExcept]
  cases hr : renderGuest x ctx g with
  | error e => exact .untouched
  | ok text =>
    -- from the write on, the file is the rendered one
    have hrest : ∀ start : Bool, wp nodeWorld I (do
        startStack g o start
        let previous ← .issue (.readFacts g.vmid) id
        let facts ← factsNow g.read.digest previous
        .issue (.writeFacts g.vmid facts) id
        pure start : M Bool).run (Ends (fun b => DockerEnd x ctx g s (.ok b))
          fun e => DockerEnd x ctx g s (.error e)) (s.setCompose g.vmid text) := by
      intro start
      rw [wp_bind]
      refine wp_startStack hplain (hup text hr) ?_ fun _ => .rendered hr
      refine wp_plain_bind (only_issue trivial _) hplain (fun previous => ?_) fun _ => .rendered hr
      rw [factsNow, wp_bind, wp_bind, wp_issue]
      refine ⟨hplain _ _ trivial, fun appliedAt s' hs' => ?_⟩
      subst hs'
      rw [ends_ok, wp_pure, wp_bind, wp_issue]
      refine ⟨hI _ _ nofun, fun r s' hs' => ?_⟩
      rcases hs' with rfl | ⟨rfl, hfail⟩
      · cases r with
        | ok u => exact .recorded hr rfl
        | error e => exact .recorded hr rfl
      · cases r with
        | ok u => exact absurd rfl (hfail u)
        | error e => exact .rendered hr
    rw [ends_ok, wp_bind, wp_issue]
    refine ⟨hplain _ _ trivial, fun r s' hs' => ?_⟩
    obtain ⟨rfl, hcurrent⟩ := hs'
    cases r with
    | error e => exact .untouched
    | ok current =>
      obtain rfl := hcurrent current rfl
      refine wp_plain_bind (plain_wantsStart _ _ _) hplain (fun start => ?_) fun _ => .untouched
      rw [wp_bind, putCompose]
      split_ifs with hne
      · refine wp_plain_bind (plain_report _) hplain (fun _ => ?_) fun _ => .untouched
        rw [wp_issue]
        refine ⟨hI _ _ nofun, fun r s'' hs'' => ?_⟩
        rcases hs'' with rfl | ⟨rfl, hfail⟩
        · cases r with
          | ok u => exact hrest start
          | error e => exact .rendered hr
        · cases r with
          | ok u => exact absurd rfl (hfail u)
          | error e => exact .untouched
      · rw [wp_pure]
        have hsame := Node.setCompose_eq_self (not_not.mp hne)
        rw [hsame] at hrest
        exact hrest start

/-- How the docker half of an attempt may end, when it began in `s`. -/
inductive HalfEnd (x : External) (ctx : Ctx) (g : Guest) (s : Node) : Result Unit → Node → Prop where
  | untouched {e : Error} : HalfEnd x ctx g s (.error e) s
  | skipped : (g.read.doc.policy.docker = .auto →
      ∃ f, s.facts g.vmid = some f ∧ f.digest = g.read.digest) → HalfEnd x ctx g s (.ok ()) s
  | applied {r : Result Bool} {s' : Node} : g.read.doc.policy.docker = .auto →
      DockerEnd x ctx g s r s' → HalfEnd x ctx g s (r.map fun _ => ()) s'

/-- **The docker half of an attempt (proved)**: skipped, or a docker half. -/
theorem wp_dockerHalf {x : External} {ctx : Ctx} {g : Guest} {I : Node → Cmd → Prop} {s : Node}
    (hI : ∀ s c, (∀ v, c ≠ .up v) → I s c)
    (hup : ∀ text, renderGuest x ctx g = .ok text → I (s.setCompose g.vmid text) (.up g.vmid)) :
    wp nodeWorld I (dockerHalf x ctx g).run (HalfEnd x ctx g s) s := by
  have hplain : ∀ s c, c.Plain → I s c := fun s c hc => hI s c (by
    rintro v rfl
    exact hc)
  rw [← ends_eta (HalfEnd x ctx g s), dockerHalf, wp_bind, wp_issue]
  refine ⟨hplain _ _ trivial, fun r s' hs' => ?_⟩
  obtain ⟨rfl, hfacts⟩ := hs'
  cases r with
  | error e => exact .untouched
  | ok facts =>
    obtain rfl := hfacts facts rfl
    dsimp only [id, ends_ok]
    split_ifs with happly
    · rw [wp_bind]
      refine wp_mono (wp_dockerApplyGuest hI hup) fun r s₁ hr => ?_
      cases r with
      | error e => exact .applied happly.1 hr
      | ok started =>
        refine ⟨hplain _ _ trivial, fun u s₂ hs₂ => ?_⟩
        subst hs₂
        exact .applied happly.1 hr
    · rw [wp_pure]
      refine .skipped fun hauto => ?_
      have hany : (s'.facts g.vmid).any (·.digest = g.read.digest) = true := by
        simpa [hauto] using happly
      obtain ⟨f, hf, hd⟩ := (Option.any_eq_true _ _).mp hany
      exact ⟨f, hf, of_decide_eq_true hd⟩

/-! ### An attempt -/

theorem only_withLock {α : Type} {K : Cmd → Prop} {vmid : ℕ} {body : M α} (hlock : K (.lock vmid 60))
    (hunlock : K (.unlock vmid)) (h : Only K body.run) : Only K (withLock vmid body).run :=
  only_bind (only_issue hlock _) fun _ => only_bind (only_attempt h) fun r =>
    only_bind (only_issue hunlock _) fun _ => only_ofExcept r

theorem plain_readConfig (node : Text) (vmid : ℕ) : Only Cmd.Plain (readConfig node vmid).run := by
  refine only_bind (only_issue trivial _) fun v => ?_
  cases v with
  | none => exact only_ofExcept _
  | some conf => exact only_ofExcept _

theorem plain_loadWith (ctx : Ctx) (read : Read) : Only Cmd.Plain (loadWith ctx read).run :=
  only_bind (plain_readConfig _ _) fun _ => only_bind (only_ofExcept _) fun _ => only_pure _

theorem plain_refreshConfig (ctx : Ctx) (g : Guest) : Only Cmd.Plain (refreshConfig ctx g).run :=
  only_bind (plain_readConfig _ _) fun _ => only_pure _

/-- The commands of an attempt: nothing of the loop itself, and no document is read. -/
def Cmd.OfAttempt : Cmd → Prop
  | .version | .loadConfig | .now | .sleep _ | .list _ | .metaGet _ => False
  | _ => True

theorem Cmd.Plain.ofAttempt {c : Cmd} (h : c.Plain) : c.OfAttempt := by
  cases c with
  | version => exact h.elim
  | loadConfig => exact h.elim
  | now => exact h.elim
  | sleep _ => exact h.elim
  | list _ => exact h.elim
  | metaGet _ => exact h.elim
  | _ => trivial

theorem Cmd.OfPct.ofAttempt {vmid : ℕ} {c : Cmd} (h : c.OfPct vmid) : c.OfAttempt := by
  rcases h with h | ⟨op, call, rfl⟩
  · exact h.ofAttempt
  · trivial

theorem Cmd.OfDocker.ofAttempt {x : External} {ctx : Ctx} {g : Guest} {c : Cmd}
    (h : c.OfDocker x ctx g) : c.OfAttempt := by
  cases h with
  | plain hc => exact hc.ofAttempt
  | up => trivial
  | compose _ => trivial
  | facts _ => trivial

theorem only_pctHalf (ctx : Ctx) (g : Guest) : Only Cmd.OfAttempt (pctHalf ctx g).run := by
  have hplain : ∀ {α : Type} {p : Prog sig α}, Only Cmd.Plain p → Only Cmd.OfAttempt p :=
    fun h => only_mono h fun _ => Cmd.Plain.ofAttempt
  unfold pctHalf
  split_ifs
  · refine only_bind (only_mono (only_pctApplyGuest ctx g) fun _ => Cmd.OfPct.ofAttempt) fun n => ?_
    split_ifs
    · exact only_bind (hplain (plain_report _)) fun _ => hplain (plain_refreshConfig _ _)
    · exact only_pure _
  · exact only_pure _

theorem only_dockerHalf (x : External) (ctx : Ctx) (g : Guest) :
    Only Cmd.OfAttempt (dockerHalf x ctx g).run := by
  refine only_bind (only_issue trivial _) fun facts => ?_
  dsimp only
  split_ifs
  · exact only_bind (only_mono (only_dockerApplyGuest x ctx g _) fun _ => Cmd.OfDocker.ofAttempt)
      fun started => only_mono (plain_report _) fun _ => Cmd.Plain.ofAttempt
  · exact only_pure _

/-- **An attempt, in any world (proved).** -/
theorem only_attemptGuest (x : External) (ctx : Ctx) (vmid : ℕ) (read : Read) :
    Only Cmd.OfAttempt (attempt x ctx vmid read).run :=
  only_withLock trivial trivial <|
    only_bind (only_mono (plain_loadWith ctx read) fun _ => Cmd.Plain.ofAttempt) fun g =>
      only_bind (only_pctHalf ctx g) fun g' => only_dockerHalf x ctx g'

/-! ### A node that answers -/

mutual

/-- Block YAML of a mapping whose scalars need no quotes. -/
def blockEntries (indent : Text) : List (Value × Value) → Option Text
  | [] => some []
  | (.string k, v) :: es => do
    let here ← blockEntry indent k v
    let rest ← blockEntries indent es
    some (here ++ rest)
  | _ => none

def blockEntry (indent k : Text) : Value → Option Text
  | .string s => some (indent ++ k ++ ": " ++ s ++ "\n")
  | .mapping (e :: es) => do
    let rest ← blockEntries (indent ++ "  ") (e :: es)
    some (indent ++ k ++ ":\n" ++ rest)
  | _ => none

end

def blockYaml : Value → Result Text
  | .mapping es => (blockEntries [] es).elim (bail "not printed here") .ok
  | _ => bail "not printed here"

/-- The libraries on a few texts: the documents, each with its digest, and the configs.  The digest
of any other text is told apart by a first letter no digest has. -/
def External.on (docs : List (Text × Text × Doc)) (configs : List (Text × Config)) : External where
  docFromYaml t := (Assoc.get? t docs).elim (bail "not read here") fun d => .ok d.2
  configFromYaml t := (Assoc.get? t configs).elim (bail "not read here") .ok
  toYaml := blockYaml
  digest t := (Assoc.get? t docs).elim ('-' :: t) Prod.fst

theorem External.on_digest_injective {docs : List (Text × Text × Doc)}
    {configs : List (Text × Config)}
    (hdocs : ∀ e ∈ docs, e.2.1.head? ≠ some '-' ∧ ∀ e' ∈ docs, e.2.1 = e'.2.1 → e.1 = e'.1) :
    Function.Injective (External.on docs configs).digest := by
  intro t t' h
  change (Assoc.get? t docs).elim ('-' :: t) Prod.fst
    = (Assoc.get? t' docs).elim ('-' :: t') Prod.fst at h
  cases ht : Assoc.get? t docs with
  | some d =>
    cases ht' : Assoc.get? t' docs with
    | some d' =>
      rw [ht, ht'] at h
      exact (hdocs _ (Assoc.mem_of_get? ht)).2 _ (Assoc.mem_of_get? ht') h
    | none =>
      rw [ht, ht'] at h
      exact absurd (congrArg List.head? h) (hdocs _ (Assoc.mem_of_get? ht)).1
  | none =>
    cases ht' : Assoc.get? t' docs with
    | some d' =>
      rw [ht, ht'] at h
      exact absurd (congrArg List.head? h.symm) (hdocs _ (Assoc.mem_of_get? ht')).1
    | none =>
      rw [ht, ht'] at h
      exact (List.cons.inj h).2

/-- What a computed run depends on besides the node. -/
structure Script where
  now : ℤ
  listed : List Listed
  upFails : Bool

/-- `pve-meta get`: exit 2 when the guest has no such subtree. -/
def storeOutput : Option Text → Output
  | some text => { status := 0, stdout := text, stderr := [] }
  | none => { status := 2, stdout := [], stderr := [] }

/-- A node on which reads and file writes succeed and `pct` is refused. -/
def Script.answer (sc : Script) (s : Node) : (c : Cmd) → c.Answer × Node
  | .version => (.ok (some s.token), s)
  | .loadConfig => (s.file, s)
  | .now => (sc.now, s)
  | .wallClock => ("2026-01-01T00:00:00+00:00".toList, s)
  | .sleep _ | .notify _ | .report _ | .unlock _ => ((), s)
  | .list _ => (.ok sc.listed, s)
  | .metaGet v => (.ok (storeOutput (s.docs v)), s)
  | .lock _ _ | .dockerInstall _ | .pull _ => (.ok (), s)
  | .status _ _ => (.ok .running, s)
  | .config _ v => (.ok (some (s.conf v)), s)
  | .pct _ _ _ => (bail "pct: refused", s)
  | .dockerInfo _ => (.ok 0, s)
  | .exec _ _ => (.ok ⟨0, [], []⟩, s)
  | .ps _ => (.ok [], s)
  | .readCompose v => (.ok (s.compose v), s)
  | .writeCompose v text => (.ok (), s.setCompose v text)
  | .up _ => (if sc.upFails then bail "docker compose: failed" else .ok (), s)
  | .readFacts v => (.ok (s.facts v), s)
  | .writeFacts v facts => (.ok (), s.setFacts v facts)

theorem Script.answer_effect (sc : Script) (s : Node) (c : Cmd) :
    nodeWorld.reply s c (sc.answer s c).1 (sc.answer s c).2 := by
  cases c with
  | version => exact ⟨rfl, by rintro _ ⟨⟩; rfl⟩
  | loadConfig => exact ⟨rfl, rfl⟩
  | metaGet v =>
    refine ⟨rfl, fun out hout => ?_⟩
    obtain rfl : storeOutput (s.docs v) = out := Except.ok.inj hout
    cases s.docs v <;> simp [storeOutput]
  | config _ v => exact ⟨rfl, by rintro _ ⟨⟩; rfl⟩
  | readCompose v => exact ⟨rfl, by rintro _ ⟨⟩; rfl⟩
  | readFacts v => exact ⟨rfl, by rintro _ ⟨⟩; rfl⟩
  | writeCompose v text => exact .inl rfl
  | writeFacts v facts => exact .inl rfl
  | pct v op call => exact .inr ⟨rfl, nofun⟩
  | _ => rfl

/-! ### A guest to compute with -/

/-- A document whose one service runs `image`, as text. -/
def webText (image : Text) : Text :=
  "spec:\n  services:\n    web:\n      image: " ++ image ++ "\n"

def webDoc (image : Text) : Doc where
  stack := ⟨none⟩
  policy := .default
  spec := .mapping [(.string "services", .mapping [(.string "web",
    .mapping [(.string "image", .string image)])])]

/-- The two documents, each with its SHA-256. -/
def webDocs : List (Text × Text × Doc) :=
  [(webText "nginx", "925926c667a130128db6201fbe7d3acf5249274bb3067f8f19387d2f0e82e0dd",
      webDoc "nginx"),
    (webText "caddy", "e15afe24f0ec16f69c25819d533a9a58cae28e66486dec1d673c416bb2869673",
      webDoc "caddy")]

def webExternal : External := .on webDocs []

theorem webDigest_injective : Function.Injective webExternal.digest :=
  External.on_digest_injective (by decide)

def webCtx : Ctx := { node := "pve", config := Config.default, tag := none }

/-- A guest with the features docker needs. -/
def webConf : PveConfig where
  fields := [("hostname", .string "web"), ("features", .string "keyctl=1,nesting=1"),
    ("unprivileged", .other "1")]
  distinct := by
    show (["hostname".toList, "features".toList, "unprivileged".toList] : List Text).Nodup
    decide
  small := by
    show 3 ≤ MAX_OUTPUT
    decide

/-- What the guest should have for the document. -/
def webRendered (image : Text) : Text :=
  HEADER ++ "name: web\nservices:\n  web:\n    image: " ++ image ++ "\n"

end PveCompose
