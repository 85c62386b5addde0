import PveCompose.Converge
import PveCompose.Foretold

/-!
# A second apply (`ops/apply.rs`, `plan.rs`)

An apply that ended well is run again over what it left.  Of PVE it is assumed that it keeps a line of
its own for every disk it allocates (`AllocatedOwn`).

* `run_apply_ok` — an apply that ended well is a pct half and a rest that changes no config;
* `apply_settles` — **PROVED**: where every volume is converging, the guest is left with nothing
  planned, the file it should have and facts that name its document: `diff` says so, and any apply
  after it runs no operation and writes no file.
-/

namespace PveCompose

open Programs

/-- What a command does, where PVE keeps lines of its own. -/
def OwnEffect (s : Node) : (c : Cmd) → c.Answer → Node → Prop
  | .pct v op call, r, s' =>
      (∃ conf', Performs AllocatedOwn (s.conf v) conf' op call ∧ s' = s.setConf v conf') ∨
        s' = s ∧ ∀ u, r ≠ .ok u
  | c, r, s' => Effect s c r s'

def ownWorld : World sig Node := ⟨OwnEffect⟩

theorem effect_of_own {s s' : Node} {c : Cmd} {r : c.Answer} (h : OwnEffect s c r s') :
    Effect s c r s' := by
  cases c with
  | pct v op call =>
    rcases h with ⟨conf', hp, rfl⟩ | hfail
    · exact .inl ⟨conf', hp.mono fun _ _ _ _ ha => .inr ha, rfl⟩
    · exact .inr hfail
  | _ => exact h

/-! ### What an apply leaves -/

/-- No command changes a document. -/
theorem docs_of_effect {s s' : Node} {c : Cmd} {r : c.Answer} (h : Effect s c r s') :
    s'.docs = s.docs := by
  cases c with
  | pct v op call =>
    rcases h with ⟨conf', -, rfl⟩ | ⟨rfl, -⟩
    · rfl
    · rfl
  | writeCompose v text =>
    rcases h with rfl | ⟨rfl, -⟩
    · rfl
    · rfl
  | writeFacts v f =>
    rcases h with rfl | ⟨rfl, -⟩
    · rfl
    · rfl
  | version => exact congrArg Node.docs h.1
  | loadConfig => exact congrArg Node.docs h.1
  | metaGet v => exact congrArg Node.docs h.1
  | config n v => exact congrArg Node.docs h.1
  | readCompose v => exact congrArg Node.docs h.1
  | readFacts v => exact congrArg Node.docs h.1
  | _ => exact congrArg Node.docs (show s' = s from h)

/-- Only an operation changes a config. -/
theorem conf_of_effect {s s' : Node} {c : Cmd} {r : c.Answer} (hc : c.op = none)
    (h : Effect s c r s') : s'.conf = s.conf := by
  cases c with
  | pct v op call => cases hc
  | writeCompose v text =>
    rcases h with rfl | ⟨rfl, -⟩
    · rfl
    · rfl
  | writeFacts v f =>
    rcases h with rfl | ⟨rfl, -⟩
    · rfl
    · rfl
  | version => exact congrArg Node.conf h.1
  | loadConfig => exact congrArg Node.conf h.1
  | metaGet v => exact congrArg Node.conf h.1
  | config n v => exact congrArg Node.conf h.1
  | readCompose v => exact congrArg Node.conf h.1
  | readFacts v => exact congrArg Node.conf h.1
  | _ => exact congrArg Node.conf (show s' = s from h)

section

variable {x : External} {ctx : Ctx} {vmid : ℕ} {s s' s₁ : Node} {g : Guest} {p : Plan} {want : Text}
  {tr : List (Event sig)} {o : Options}

theorem docs_of_run {α : Type} {q : Prog sig α} {a : α} (h : Run nodeWorld s q tr a s') :
    s'.docs = s.docs :=
  wp_run (Q := fun _ s' => s'.docs = s.docs) (wp_only (K := fun _ => True) (I := Unasked) only_true
    (fun _ _ _ _ _ hP hr => (docs_of_effect hr).trans hP) (fun _ _ _ _ => trivial) rfl) h

theorem conf_of_run {α : Type} {q : Prog sig α} {a : α} (hq : Only (fun c : Cmd => c.op = none) q)
    (h : Run nodeWorld s q tr a s') : s'.conf = s.conf :=
  wp_run (Q := fun _ s' => s'.conf = s.conf) (wp_only (I := Unasked) hq
    (fun _ _ _ _ hc hP hr => (conf_of_effect hc hr).trans hP) (fun _ _ _ _ => trivial) rfl) h

/-- An apply that ended well: the pct half of the guest that was foreseen, and the rest, which runs no
operation. -/
theorem run_apply_ok (hf : Foreseen x ctx vmid s g p want)
    (h : Run ownWorld s (apply x ctx vmid o).run tr (.ok ()) s') :
    ∃ tr₁ n s₁, Run ownWorld s (pctApplyGuest ctx g).run tr₁ (.ok n) s₁ ∧ s'.conf = s₁.conf := by
  have hmono : ∀ {α : Type} {q : Prog sig α} {tr : List (Event sig)} {a : α} {s s' : Node},
      Run ownWorld s q tr a s' → Run nodeWorld s q tr a s' :=
    run_mono fun _ _ _ _ => effect_of_own
  obtain ⟨tr₁, hbody, -, -⟩ := (run_withLock (fun _ _ _ _ => effect_of_own) h).resolve_left
    (by rintro ⟨-, -, e, he⟩; cases he)
  rw [applyLocked] at hbody
  obtain ⟨_, _, s₂, tr₂, -, hrunning, hbody₁⟩ := run_bind_ok hbody
  have hs₂ : Ends (fun _ s₂ => s₂ = s) (fun _ _ => True) (.ok _ : Result Unit) s₂ :=
    wp_run (wp_plain (plain_requireRunning _ _) (fun _ _ _ => trivial) (fun _ => rfl)
      fun _ => trivial) (hmono hrunning)
  obtain rfl : s₂ = s := hs₂
  obtain ⟨_, g₁, s₃, tr₃, -, hload, hbody₂⟩ := run_bind_ok hbody₁
  obtain ⟨hs₃, hvmid, hread, hloaded⟩ :=
    wp_run (wp_load (I := Unasked) fun _ _ _ => trivial) (hmono hload)
  obtain rfl : s₃ = s₂ := hs₃
  obtain rfl := loaded_unique (hvmid.trans hf.vmid.symm) hf.read hf.loaded hread hloaded
  obtain ⟨tr₄, n, s₄, tr₅, -, hpct, hrest⟩ := run_bind_ok hbody₂
  refine ⟨tr₄, n, s₄, hpct, conf_of_run ?_ (hmono hrest)⟩
  refine only_bind ?_ fun g₂ => only_bind (only_mono (only_dockerApplyGuest x ctx g₂ o) ?_) fun _ =>
    only_pure _
  · unfold refreshIfChanged
    split_ifs
    · exact only_mono (plain_refreshConfig ctx g₁) fun _ => op_of_plain
    · exact only_pure _
  · rintro c hc
    cases hc with
    | plain hc => exact op_of_plain hc
    | up => rfl
    | compose _ => rfl
    | facts _ => rfl

/-- The calls of the pct half, each performed with a line of PVE's own. -/
theorem performsAll_of_run {n : ℕ} (hp : pctPlan ctx g = .ok p)
    (h : Run ownWorld s (pctApplyGuest ctx g).run tr (.ok n) s₁) :
    ∃ conf, PerformsAll AllocatedOwn (s.conf g.vmid) (execute g.config p) conf ∧
      s₁ = s.setConf g.vmid conf := by
  have hplain : ∀ (s : Node) (c : Cmd) (r : c.Answer) (s' : Node), c.Plain → OwnEffect s c r s' → s' = s :=
    fun _ _ _ _ hc hr => eq_of_plain hc (effect_of_own hr)
  have hend := wp_run (wp_pctApplyGuest_calls (W := ownWorld) (s := s)
    (J := fun done s' => ∃ conf, PerformsAll AllocatedOwn (s.conf g.vmid) done conf ∧
      s' = s.setConf g.vmid conf) (F := fun _ _ => True) hp ?_ (fun _ _ _ _ _ _ _ _ => trivial) ?_
    (fun _ _ _ _ _ _ _ _ => trivial) ⟨_, .nil, (s.setConf_eq_self _).symm⟩) h
  · exact hend.2
  · intro done s₂ c r s₃ hc hs₂ hr
    rwa [hplain s₂ c r s₃ hc hr]
  · rintro done op call s₂ u s₃ ⟨conf, hdone, rfl⟩ (⟨conf', hop, rfl⟩ | ⟨-, hbad⟩)
    · rw [Node.setConf_conf] at hop
      exact ⟨conf', hdone.concat hop, s.setConf_setConf _ _ _⟩
    · exact absurd rfl (hbad u)

/-! ### The second apply -/

theorem PerformsAll.mono {alloc alloc' : Alloc} (hle : ∀ op key value line,
    alloc op key value line → alloc' op key value line) {conf conf' : PveConfig}
    {steps : List (Op × Call)} (h : PerformsAll alloc conf steps conf') :
    PerformsAll alloc' conf steps conf' := by
  induction h with
  | nil => exact .nil
  | cons hp _ ih => exact .cons (hp.mono hle) ih

/-- What `diff` prints of the docker half of a guest at rest. -/
def restSaid (f : Facts) : List Text :=
  [("docker: document unchanged since last apply (" ++ f.appliedAt ++ ")" : Text) ++ "\n",
    "docker: " ++ COMPOSE_FILE ++ " up to date\n"]

/-- What leads to nothing left to do: an accepted document over a config with one mount a path, each
volume converging. -/
structure Leads (ctx : Ctx) (g : Guest) : Prop where
  single : g.config.SinglePaths
  names : (g.volumes.map Volume.name).Nodup
  tag : ∀ t ∈ ctx.tag, SingleTag t
  converging : ∀ v ∈ g.volumes, Converging (pctInputs ctx g) v

/-- After an apply that ended well nothing is planned, and the file should be what it should have
been. -/
theorem foreseen_after (hf : Foreseen x ctx vmid s g p want) (hg : Leads ctx g)
    (h : Run ownWorld s (apply x ctx vmid o).run tr (.ok ()) s₁) :
    ∃ g₁ p₁, Foreseen x ctx vmid s₁ g₁ p₁ want ∧ p₁.ops = [] ∧ g₁.read = g.read := by
  obtain ⟨tr₁, n, s₂, hpct, hconf⟩ := run_apply_ok hf h
  obtain ⟨conf, hall, rfl⟩ := performsAll_of_run hf.plan hpct
  have hat := hf.loaded.vmid
  have hread : parseConfig g.vmid (s.conf g.vmid) = .ok (pctInputs ctx g).guest :=
    hat ▸ hf.loaded.config
  have hcut := (build_resumes_iff hread hg.single hf.loaded.volumes hg.names hg.tag hf.plan).1
    hg.converging p.ops.length conf
  have hlen : (execute g.config p).length = p.ops.length := by
    rw [← List.length_map (f := Prod.fst), execute, map_callsFrom]
  have hdone : PerformsAll AllocatedOwn (s.conf g.vmid)
      ((execute (pctInputs ctx g).guest p).take p.ops.length) conf := by
    rw [← hlen]
    exact (List.take_length (l := execute g.config p)).symm ▸ hall
  obtain ⟨config, p₁, hconfig, hplan, hsame⟩ := hcut hdone
  rw [List.drop_length] at hsame
  have hops : p₁.ops = [] := List.forall₂_nil_right_iff.mp hsame
  have hconf₁ : s₁.conf g.vmid = conf := by rw [hconf, Node.setConf_conf]
  have hdocs : s₁.docs = s.docs := docs_of_run (run_mono (fun _ _ _ _ => effect_of_own) h)
  have hread₁ : ReadNow x s₁ g.read := ⟨hdocs ▸ hf.read.text, hf.read.digest, hf.read.doc⟩
  have hloaded₁ : LoadedNow ctx s₁ { g with config } := by
    refine ⟨?_, hf.loaded.volumes⟩
    show parseConfig g.read.vmid (s₁.conf g.read.vmid) = .ok config
    rw [← hat, hconf₁, hconfig]
  refine ⟨{ g with config }, p₁, ⟨hf.vmid, hread₁, hloaded₁, hplan, ?_⟩, hops, rfl⟩
  -- the hostname is what it was
  have hhost : s₁.hostname g.read.vmid = s.hostname g.read.vmid := by
    unfold Node.hostname
    rw [← hat, hconf₁, hostname_callsFrom hread (fun op hop => (build_ok hf.plan).2 ▸ hop)
      (hall.mono fun _ _ _ _ ha => .inr ha)]
  have hfrom := LoadedNow.from (g := { g with config }) hread₁ hloaded₁
  rw [hhost] at hfrom
  rw [renderGuest_eq hfrom (hf.loaded.from hf.read), hf.render]

/-- **A second apply (proved).** -/
theorem apply_settles (hf : Foreseen x ctx vmid s g p want) (hg : Leads ctx g)
    (h : Run ownWorld s (apply x ctx vmid o).run tr (.ok ()) s₁) :
    ∃ p₁ f, p₁.ops = [] ∧ s₁.facts vmid = some f ∧
      (∀ out seen s', Run viewWorld (s₁, out) (diff x ctx vmid).run seen (.ok ()) s' →
        s' = (s₁, out ++ (planSaid p₁ ++ restSaid f))) ∧
      ∀ o' tr' r s₂, Run nodeWorld s₁ (apply x ctx vmid o').run tr' r s₂ →
        opsOf tr' = [] ∧ writtenIn tr' = [] := by
  obtain ⟨g₁, p₁, hf₁, hops, hsame⟩ := foreseen_after hf hg h
  have hrun : Run nodeWorld s (apply x ctx vmid o).run tr (.ok ()) s₁ :=
    run_mono (fun _ _ _ _ => effect_of_own) h
  have hdone := (carried_of_apply hf hrun).done rfl
  obtain ⟨-, hcompose, hnamed⟩ := hdone
  obtain ⟨f, hfacts, hdigest⟩ := hnamed
  refine ⟨p₁, f, hops, hfacts, fun out seen s' hdiff => ?_, fun o' tr' r s₂ hagain => ?_⟩
  · have hend := wp_run wp_diff hdiff
    obtain ⟨g₂, p₂, want₂, hf₂, rfl⟩ := hend
    obtain rfl := loaded_unique (hf₁.vmid.trans hf₂.vmid.symm) hf₂.read hf₂.loaded hf₁.read hf₁.loaded
    obtain rfl : p₂ = p₁ := Except.ok.inj (hf₂.plan.symm.trans hf₁.plan)
    obtain rfl : want₂ = want := Except.ok.inj (hf₂.render.symm.trans hf₁.render)
    have hvmid : g₁.vmid = vmid := hf₁.loaded.vmid.trans hf₁.vmid
    have hdigest₁ : f.digest = g₁.read.digest := hsame ▸ hdigest
    rw [diffSaid, hvmid, hfacts, hcompose, factsSaid_same hdigest₁, Option.getD_some,
      composeSaid_self, restSaid]
  · have hcarried := carried_of_apply hf₁ hagain
    refine ⟨List.prefix_nil.mp (hops ▸ hcarried.ops), ?_⟩
    refine List.eq_nil_iff_forall_not_mem.mpr fun text ht => ?_
    exact (hcarried.written text ht).2 hcompose

end

/-! ### A tag and a disk, once -/

theorem Script.granting_own (sc : Script) (volume : Text) (s : Node) (c : Cmd) :
    ownWorld.reply s c (sc.granting volume s c).1 (sc.granting volume s c).2 := by
  have h := sc.granting_effect volume s c
  cases c with
  | pct v op call =>
    rw [Script.granting_pct]
    cases hconf : granted volume (s.conf v) op call with
    | none => exact .inr ⟨rfl, nofun⟩
    | some conf => exact .inl ⟨conf, performs_granted (fun _ _ _ _ ha => ha) hconf, rfl⟩
  | _ => exact h

theorem leads_newcomer : Leads newcomerCtx newcomerGuest where
  single := nofun
  names := by decide
  tag := by
    rintro t ⟨⟩
    exact ⟨by decide, by decide, by decide⟩
  converging := by
    intro v hv
    obtain rfl := List.mem_singleton.mp hv
    show diskSizeSatisfied (some (Size.saturate (2 ^ 30))) (Size.saturate (2 ^ 30)) = true
    decide

/-- The guest gets its tag and its disk; then nothing is left to do, whatever the options. -/
theorem apply_settles_newcomer : ∃ tr s₁,
    Run ownWorld newcomerNode (apply dataExternal newcomerCtx 105 handOptions).run tr (.ok ()) s₁ ∧
      opsOf tr = newcomerPlan.ops ∧
      ∀ o' tr' r s₂, Run nodeWorld s₁ (apply dataExternal newcomerCtx 105 o').run tr' r s₂ →
        opsOf tr' = [] ∧ writtenIn tr' = [] := by
  have hrun := run_trace (dataScript.granting_own "local:vm-105-disk-1")
    (apply dataExternal newcomerCtx 105 handOptions).run newcomerNode
  have hend := newcomer_ok
  unfold newcomerAnswer at hend
  rw [hend] at hrun
  obtain ⟨_, _, -, -, -, hagain⟩ := apply_settles foreseen_newcomer leads_newcomer hrun
  exact ⟨_, _, hrun, by decide +kernel, hagain⟩

end PveCompose
