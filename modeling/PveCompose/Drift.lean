import PveCompose.Applied
import PveCompose.Mounted
import PveCompose.Reload
import PveCompose.Visit

/-!
# What a full pass leaves (`ops/daemon.rs`)

Runs of document writes, changes of the operator's config and of the guests' configs, and turns of
the loop in which no attempt fails.  A full pass remembers nothing, so it attempts every guest; an
attempt leaves the compose file alone where the facts already name the document.

* `Outcome` — what an attempt that did not fail leaves in its guest (`wp_attempt_done`);
* `Since` — the invariant of a full pass, from the state it began in (`since_visitAll`);
* `recorded_of_history` — **the run lemma**: beside its facts, a guest has the file they were written
  for;
* `full_pass_up_to_date_iff` — **PROVED**: a full pass leaves a guest with the file it should have if
  and only if the facts did not name its document already, or the file recorded with them still is
  what the document renders to;
* `full_pass_leaves_drift` — a hostname that changes between two full passes.
-/

namespace PveCompose

open Programs

namespace Node

def hostname (s : Node) (vmid : ℕ) : Option Text :=
  ((s.conf vmid).get? "hostname").map JsonValue.text

/-- The facts of the guest name a document of this digest. -/
def Named (s : Node) (vmid : ℕ) (digest : Text) : Prop :=
  ∃ f, s.facts vmid = some f ∧ f.digest = digest

/-- Nothing inside the guest differs. -/
structure SameInside (s s' : Node) (vmid : ℕ) : Prop where
  compose : s'.compose vmid = s.compose vmid
  facts : s'.facts vmid = s.facts vmid
  recorded : s'.recorded vmid = s.recorded vmid

theorem SameInside.refl (s : Node) (vmid : ℕ) : s.SameInside s vmid := ⟨rfl, rfl, rfl⟩

theorem SameInside.trans {s₁ s₂ s₃ : Node} {vmid : ℕ} (h : s₁.SameInside s₂ vmid)
    (h' : s₂.SameInside s₃ vmid) : s₁.SameInside s₃ vmid :=
  ⟨h'.compose.trans h.compose, h'.facts.trans h.facts, h'.recorded.trans h.recorded⟩

theorem SameInside.named_iff {s s' : Node} {vmid : ℕ} (h : s.SameInside s' vmid) {d : Text} :
    s'.Named vmid d ↔ s.Named vmid d := by
  unfold Named
  rw [h.facts]

end Node

/-! ### The hostname along a plan -/

/-- No call of a plan writes the hostname. -/
theorem hostname_performs {i : Inputs} {vmid next : ℕ} {conf₀ conf conf' : PveConfig} {op : Op}
    (hread : parseConfig vmid conf₀ = .ok i.guest) (hop : op ∈ planOps i)
    (hp : Performs AllocatedAs conf conf' op (opCall i.guest next op).1) :
    conf'.get? "hostname" = conf.get? "hostname" := by
  have hother : ∀ {key line : Text}, PveConfig.Stored key line conf conf' →
      ("hostname" : Text) ≠ key → conf'.get? "hostname" = conf.get? "hostname" := by
    intro key line hs hne
    rw [hs, if_neg hne]
  have hmount : ∀ {key : Text}, isMountKey key = true → ("hostname" : Text) ≠ key := by
    rintro key hk rfl
    exact absurd hk (by decide)
  cases op with
  | setFeatures s =>
    cases hp with
    | setFeatures hs => exact hother hs (by decide)
  | addTag t =>
    cases hp with
    | addTag hs => exact hother hs (by decide)
  | createDisk mp st size b =>
    cases hp with
    | createDisk _ hs => exact hother hs (hmount (isMountKey_mpKey _))
  | createBind mp path =>
    cases hp with
    | createBind hs => exact hother hs (hmount (isMountKey_mpKey _))
  | resize key mp old new =>
    cases hp with
    | resize hm _ hs => exact hother hs (hmount (PveConfig.mountOf_eq_some_iff.mp hm).1)
  | setBackup m b =>
    cases hp with
    | setBackup hs =>
      have hmem := (parseConfig_ok hread).mem_mounts.mp (mem_mounts_of_setBackup hop)
      exact hother hs (hmount hmem.1)

theorem hostname_callsFrom {i : Inputs} {vmid next : ℕ} {conf₀ conf conf' : PveConfig}
    {ops : List Op} (hread : parseConfig vmid conf₀ = .ok i.guest) (hops : ∀ op ∈ ops, op ∈ planOps i)
    (h : PerformsAll AllocatedAs conf (callsFrom i.guest next ops) conf') :
    conf'.get? "hostname" = conf.get? "hostname" := by
  induction ops generalizing conf next with
  | nil =>
    cases h
    rfl
  | cons op ops ih =>
    cases h with
    | cons hp hrest =>
      have h₁ := hostname_performs hread (hops op (by simp)) hp
      exact (ih (fun o ho => hops o (by simp [ho])) hrest).trans h₁

variable {x : External} {ctx : Ctx} {s s' : Node}

/-! ### An attempt that does not fail -/

/-- What an attempt for `read` that began in `s` leaves inside its guest. -/
structure Outcome (x : External) (ctx : Ctx) (s : Node) (read : Read) (s' : Node) : Prop where
  same : (read.doc.policy.docker = .auto → s.Named read.vmid read.digest) →
    s.SameInside s' read.vmid
  applied : read.doc.policy.docker = .auto → ¬ s.Named read.vmid read.digest →
    ∃ g rendered, LoadedFrom x ctx (s'.hostname read.vmid) read.vmid read.text g ∧
      renderGuest x ctx g = .ok rendered ∧ s'.compose read.vmid = some rendered ∧
        s'.recorded read.vmid = some rendered

/-- What it leaves elsewhere. -/
structure Done (x : External) (ctx : Ctx) (s : Node) (read : Read) (s' : Node) : Prop where
  docs : s'.docs = s.docs
  hostname : ∀ v, s'.hostname v = s.hostname v
  others : ∀ v, v ≠ read.vmid → s.SameInside s' v
  outcome : Outcome x ctx s read s'

/-- The node after a pct half: only the config of the guest may differ, and not its hostname. -/
structure Configured (vmid : ℕ) (s s' : Node) : Prop where
  eq : ∃ conf, s' = s.setConf vmid conf
  hostname : ∀ v, s'.hostname v = s.hostname v

theorem Configured.refl (vmid : ℕ) (s : Node) : Configured vmid s s :=
  ⟨⟨s.conf vmid, (s.setConf_eq_self vmid).symm⟩, fun _ => rfl⟩

theorem configured_setConf {vmid : ℕ} {conf : PveConfig}
    (h : conf.get? "hostname" = (s.conf vmid).get? "hostname") :
    Configured vmid s (s.setConf vmid conf) := by
  refine ⟨⟨conf, rfl⟩, fun v => ?_⟩
  show (Option.map _ ((Function.update s.conf vmid conf v).get? "hostname")) = _
  by_cases hv : v = vmid
  · subst hv
    rw [Function.update_self, h]
    rfl
  · rw [Function.update_of_ne hv]
    rfl

/-- Nothing is asked of the commands. -/
abbrev Unasked : Node → Cmd → Prop := fun _ _ => True

/-- Where the facts name the document, the docker half of an attempt does nothing. -/
theorem wp_dockerHalf_named {g : Guest} (h : s.Named g.vmid g.read.digest) :
    wp nodeWorld Unasked (dockerHalf x ctx g).run (fun _ s' => s' = s) s := by
  obtain ⟨f, hf, hd⟩ := h
  rw [← ends_eta fun _ s' => s' = s, dockerHalf, wp_bind, wp_issue]
  refine ⟨trivial, fun r s' hs' => ?_⟩
  obtain ⟨rfl, hfacts⟩ := hs'
  cases r with
  | error e => exact rfl
  | ok facts =>
    obtain rfl := hfacts facts rfl
    have hany : (s'.facts g.vmid).any (·.digest = g.read.digest) = true := by
      rw [hf]
      exact decide_eq_true hd
    dsimp only [id, ends_ok]
    rw [if_neg (by simp [hany]), wp_pure]

/-- **The pct half of an attempt (proved)**: when it ends well, the guest is loaded as it is now. -/
theorem wp_pctHalf_loaded {g : Guest} (hg : LoadedNow ctx s g) :
    wp nodeWorld Unasked (pctHalf ctx g).run (Ends (fun g' s' => g'.read = g.read ∧
      LoadedNow ctx s' g' ∧ Configured g.vmid s s') fun _ _ => True) s := by
  unfold pctHalf
  split_ifs
  · rw [wp_bind]
    refine wp_ends_mono (wp_pctApplyGuest fun _ _ _ => trivial) ?_ fun _ _ _ => trivial
    rintro n s' ⟨p, conf', hp, rfl, hall, rfl⟩
    have hops : p.ops = planOps (pctInputs ctx g) := (build_ok hp).2
    have hread : parseConfig g.vmid (s.conf g.vmid) = .ok (pctInputs ctx g).guest := hg.vmid ▸ hg.config
    have hconf : Configured g.vmid s (s.setConf g.vmid conf') :=
      configured_setConf (hostname_callsFrom hread (fun op hop => hops ▸ hop) hall)
    split_ifs with hn
    · refine wp_plain_bind (plain_report _) (fun _ _ _ => trivial) (fun _ => ?_) fun _ => trivial
      rw [refreshConfig, wp_bind]
      refine wp_ends_mono (wp_readConfig fun _ _ _ => trivial) ?_ fun _ _ _ => trivial
      rintro config s'' ⟨rfl, hconfig⟩
      rw [wp_pure]
      have hvmid : g.read.vmid = g.config.vmid := hg.vmid.symm
      exact ⟨rfl, ⟨hvmid ▸ hconfig, hg.volumes⟩, hconf⟩
    · have hnil : p.ops = [] := List.length_eq_zero_iff.mp (by omega)
      rw [execute, hnil] at hall
      cases hall
      rw [s.setConf_eq_self] at hconf ⊢
      exact ⟨rfl, hg, hconf⟩
  · exact ⟨rfl, hg, .refl _ _⟩

/-- The guest loaded now is one loaded for its document, with the hostname of now. -/
theorem LoadedNow.from {g : Guest} (hread : ReadNow x s g.read) (hg : LoadedNow ctx s g) :
    LoadedFrom x ctx (s.hostname g.read.vmid) g.read.vmid g.read.text g where
  vmid := hg.vmid
  hostname := (parseConfig_ok hg.config).hostname
  digest := hread.digest
  doc := hread.doc
  volumes := hg.volumes

/-- **An attempt that does not fail (proved).** -/
theorem wp_attempt_done {read : Read} (hread : ReadNow x s read) :
    wp nodeWorld Unasked (attempt x ctx read.vmid read).run
      (Ends (fun _ s' => Done x ctx s read s') fun _ _ => True) s := by
  refine wp_withLock trivial (fun _ => trivial) ?_ fun _ => trivial
  rw [wp_bind]
  refine wp_ends_mono (wp_loadWith fun _ _ _ => trivial) ?_ fun _ _ _ => trivial
  rintro g s₀ ⟨rfl, rfl, hg⟩
  rw [wp_bind]
  refine wp_ends_mono (wp_pctHalf_loaded hg) ?_ fun _ _ _ => trivial
  rintro g' s₁ ⟨hsame, hg', hconf⟩
  have hvmid : g'.vmid = g.read.vmid := hg'.vmid.trans (congrArg Read.vmid hsame)
  obtain ⟨⟨conf, rfl⟩, hhost⟩ := hconf
  -- what the docker half finds is what the attempt found
  have hnamed : (s₀.setConf g.vmid conf).Named g'.vmid g'.read.digest ↔
      s₀.Named g.read.vmid g.read.digest := by
    rw [hvmid, hsame]
    rfl
  have hquiet : (g.read.doc.policy.docker = .auto → s₀.Named g.read.vmid g.read.digest) →
      Done x ctx s₀ g.read (s₀.setConf g.vmid conf) := fun h =>
    ⟨rfl, hhost, fun v _ => ⟨rfl, rfl, rfl⟩, fun _ => ⟨rfl, rfl, rfl⟩,
      fun hauto hn => absurd (h hauto) hn⟩
  by_cases hn : s₀.Named g.read.vmid g.read.digest
  · refine wp_mono (wp_dockerHalf_named (hnamed.mpr hn)) fun r s₂ hs₂ => ?_
    subst hs₂
    cases r with
    | ok u => exact hquiet fun _ => hn
    | error e => trivial
  · refine wp_mono (wp_dockerHalf (I := Unasked) (fun _ _ _ => trivial) fun _ _ => trivial)
      fun r s₂ hend => ?_
    cases hend with
    | untouched => trivial
    | skipped h => exact hquiet fun hauto => hnamed.mp (h (hsame ▸ hauto))
    | @applied r s₂ hauto hend =>
      cases hend with
      | untouched => trivial
      | rendered _ => trivial
      | @recorded r rendered f hrender hd =>
        cases r with
        | error e => trivial
        | ok b =>
          have hread' : ReadNow x (s₀.setConf g.vmid conf) g'.read := by
            rw [hsame]
            exact ⟨hread.text, hread.digest, hread.doc⟩
          have hfrom := hg'.from hread'
          rw [hsame, hhost] at hfrom
          rw [hvmid]
          refine ⟨rfl, hhost, fun v hv => ?_, fun h => ?_, fun _ _ => ?_⟩
          · refine ⟨Function.update_of_ne hv _ _, Function.update_of_ne hv _ _, ?_⟩
            exact Function.update_of_ne hv _ _
          · exact absurd (h (hsame ▸ hauto)) hn
          · refine ⟨g', rendered, ?_, hrender, Function.update_self _ _ _, ?_⟩
            · have hh : ((((s₀.setConf g.vmid conf).setCompose g.read.vmid rendered).setFacts
                  g.read.vmid f).hostname g.read.vmid) = s₀.hostname g.read.vmid := hhost _
              rw [hh]
              exact hfrom
            · show Function.update _ _ _ _ = _
              rw [Function.update_self]
              exact Function.update_self _ _ _

/-! ### The visits of a pass -/

variable {memo memo' : Memo} {tr : List (Event sig)} {l : LoopCtx}

/-- What a visit in which no attempt fails comes to: nothing, or an attempt. -/
inductive Visited (x : External) (ctx : Ctx) (memo : Memo) (g : Listed) (tr : List (Event sig))
    (s : Node) : Memo → Node → Prop where
  | passed : (g.Reached ctx → ∃ a : Result Output, ⟨.metaGet g.vmid, a⟩ ∈ tr ∧
      Effect s (.metaGet g.vmid) a s ∧ ∀ read, (a >>= readOutput x g.vmid) = .ok (some read) →
        Assoc.get? g.vmid memo = some read.digest) → Visited x ctx memo g tr s memo s
  | attempted {read : Read} {s' : Node} : ReadNow x s read → read.vmid = g.vmid →
      Assoc.get? g.vmid memo ≠ some read.digest → Done x ctx s read s' →
      Visited x ctx memo g tr s (Assoc.set g.vmid read.digest memo) s'

theorem run_say {msg : Text} {tr : List (Event sig)} {u : Unit} (h : Run nodeWorld s (say msg) tr u s') :
    s' = s := by
  obtain ⟨-, hr⟩ := run_ask.mp h
  exact hr

/-- **One guest (proved).** -/
theorem visited_of_run {g : Listed} (h : Run nodeWorld s (visit x ctx memo g) tr memo' s')
    (hfails : NoneFails x ctx tr) : Visited x ctx memo g tr s memo' s' := by
  cases visiting_of_run h hfails with
  | skipped hskip => exact .passed fun hreached => absurd hreached hskip
  | @passed a s₁ s₂ hmem hreply hget hend =>
    obtain ⟨rfl, hanswer⟩ := hreply
    obtain rfl : s' = s₁ := by
      rcases hend with hend | ⟨msg, hend⟩
      · exact hend
      · exact hend
    exact .passed fun _ => ⟨a, hmem, ⟨rfl, hanswer⟩, hget⟩
  | @attempted out read s₁ s₂ s₃ part hreply hout hmemo hatt hdog =>
    obtain ⟨rfl, hanswer⟩ := hreply
    obtain rfl : s' = s₂ := hdog
    have hd := decoded_of_readOutput hout
    have hnow : ReadNow x s₁ read := by
      refine ⟨?_, hd.digest, hd.doc⟩
      rw [hd.vmid, hd.text]
      exact (hanswer out rfl).1 hd.status
    rw [← hd.vmid] at hatt
    have hdone := wp_run (wp_attempt_done hnow) hatt
    exact .attempted hnow hd.vmid hmemo hdone

/-- A visit in which no attempt fails moves nothing but what is inside guests, and keeps beside the
facts the file they were written for. -/
def Recorded (s : Node) : Prop := ∀ v, s.facts v ≠ none → s.compose v = s.recorded v

theorem Recorded.same (h : Recorded s) {v : ℕ} (hs : s.SameInside s' v) :
    s'.facts v ≠ none → s'.compose v = s'.recorded v := by
  rw [hs.facts, hs.compose, hs.recorded]
  exact h v

theorem Recorded.done {read : Read} (h : Recorded s) (hd : Done x ctx s read s') : Recorded s' := by
  intro v hf
  by_cases hv : v = read.vmid
  · subst hv
    by_cases hquiet : read.doc.policy.docker = .auto → s.Named read.vmid read.digest
    · exact h.same (hd.outcome.same hquiet) hf
    · obtain ⟨hauto, hn⟩ := Classical.not_imp.mp hquiet
      obtain ⟨g, rendered, -, -, hcompose, hrecorded⟩ := hd.outcome.applied hauto hn
      rw [hcompose, hrecorded]
  · exact h.same (hd.others v hv) hf

theorem Recorded.visited {g : Listed} (h : Recorded s) (hv : Visited x ctx memo g tr s memo' s') :
    Recorded s' := by
  cases hv with
  | passed _ => exact h
  | attempted _ _ _ hd => exact h.done hd

/-- **A full pass, from the state `s₀` it began in**: a guest that is not remembered is as it was, and
one that is has been attempted once, for the document of its digest. -/
structure Since (x : External) (ctx : Ctx) (s₀ : Node) (memo : Memo) (s : Node) : Prop where
  docs : s.docs = s₀.docs
  hostname : ∀ v, s.hostname v = s₀.hostname v
  same : ∀ v, Assoc.get? v memo = none → s₀.SameInside s v
  attempted : ∀ v d, Assoc.get? v memo = some d → ∃ read, ReadNow x s₀ read ∧ read.vmid = v ∧
    read.digest = d ∧ Outcome x ctx s₀ read s

variable {s₀ : Node}

/-- What an attempt left inside a guest is still there after an attempt elsewhere. -/
theorem Outcome.after {read : Read} (h : Outcome x ctx s₀ read s) (hs : s.SameInside s' read.vmid)
    (hhost : s'.hostname read.vmid = s.hostname read.vmid) : Outcome x ctx s₀ read s' where
  same hq := (h.same hq).trans hs
  applied hauto hn := by
    rw [hhost, hs.compose, hs.recorded]
    exact h.applied hauto hn

/-- What an attempt leaves is told from any state in which the guest is the same. -/
theorem Outcome.before {read : Read} (h : Outcome x ctx s read s') (hs : s₀.SameInside s read.vmid) :
    Outcome x ctx s₀ read s' where
  same hq := hs.trans (h.same fun hauto => hs.named_iff.mpr (hq hauto))
  applied hauto hn := h.applied hauto fun hn' => hn (hs.named_iff.mp hn')

/-- **The step lemma (proved).** -/
theorem Since.visited {g : Listed} (h : Since x ctx s₀ memo s)
    (hv : Visited x ctx memo g tr s memo' s') : Since x ctx s₀ memo' s' := by
  cases hv with
  | passed _ => exact h
  | @attempted read s' hread hvmid hmemo hd =>
    have hread₀ : ReadNow x s₀ read := ⟨h.docs ▸ hread.text, hread.digest, hread.doc⟩
    -- a guest that is remembered was attempted for this very document
    have hnone : Assoc.get? g.vmid memo = none := by
      by_contra hsome
      obtain ⟨d, hget⟩ := Option.ne_none_iff_exists'.mp hsome
      obtain ⟨read', hread', hvmid', hdigest', -⟩ := h.attempted _ _ hget
      have htext : some read'.text = some read.text := by
        rw [← hread'.text, ← hread₀.text, hvmid, hvmid']
      refine hmemo ?_
      rw [hget, ← hdigest', hread'.digest, hread.digest, Option.some.inj htext]
    refine ⟨hd.docs.trans h.docs, fun v => (hd.hostname v).trans (h.hostname v), ?_, ?_⟩
    · intro v hget
      rw [Assoc.get?_set] at hget
      split_ifs at hget with hv
      exact (h.same v hget).trans (hd.others v (hvmid ▸ hv))
    · intro v d hget
      rw [Assoc.get?_set] at hget
      split_ifs at hget with hv
      · refine ⟨read, hread₀, hvmid.trans hv.symm, Option.some.inj hget, hd.outcome.before ?_⟩
        rw [hvmid]
        exact h.same _ hnone
      · obtain ⟨read', hread', hvmid', hdigest', hout⟩ := h.attempted v d hget
        have hne : read'.vmid ≠ read.vmid := by
          rw [hvmid', hvmid]
          exact hv
        exact ⟨read', hread', hvmid', hdigest', hout.after (hd.others _ hne) (hd.hostname _)⟩

/-- The store answered every read of the guest's document. -/
def Answers (v : ℕ) (tr : List (Event sig)) : Prop :=
  ∀ a : Result Output, ⟨.metaGet v, a⟩ ∈ tr → ∃ out, a = .ok out ∧ (out.status = 0 ∨ out.status = 2)

/-- A guest the pass looks at is remembered, if it has a document that the code accepts. -/
theorem remembered_of_visited {g : Listed} {text : Text} {doc : Doc} (h : Since x ctx s₀ memo s)
    (hrun : Run nodeWorld s (visit x ctx memo g) tr memo' s') (hfails : NoneFails x ctx tr)
    (hreached : g.Reached ctx) (hanswers : Answers g.vmid tr) (hdoc : s₀.docs g.vmid = some text)
    (hparse : parse x.docFromYaml text = .ok doc) : Assoc.get? g.vmid memo' ≠ none := by
  have hv := visited_of_run hrun hfails
  cases hv with
  | attempted _ _ _ _ =>
    rw [Assoc.get?_set, if_pos rfl]
    exact nofun
  | passed hpassed =>
    obtain ⟨a, ha, ⟨-, heffect⟩, hget⟩ := hpassed hreached
    obtain ⟨out, rfl, hstatus⟩ := hanswers a ha
    obtain ⟨hsome, hnone⟩ := heffect out rfl
    rw [h.docs, hdoc] at hsome hnone
    have h0 : out.status = 0 := hstatus.resolve_right fun h2 => absurd (hnone h2) nofun
    have htext : text = out.stdout := Option.some.inj (hsome h0)
    rw [hget _ (readOutput_ok h0 (htext ▸ hparse))]
    exact nofun

variable {ls : List Listed}

theorem get?_visited {g : Listed} {v : ℕ} (h : Visited x ctx memo g tr s memo' s')
    (hv : Assoc.get? v memo ≠ none) : Assoc.get? v memo' ≠ none := by
  cases h with
  | passed _ => exact hv
  | attempted _ _ _ _ =>
    rw [Assoc.get?_set]
    split_ifs
    · exact Option.some_ne_none _
    · exact hv

theorem Answers.within {v : ℕ} {tr tr' : List (Event sig)} (h : Answers v tr) (hsub : tr' <:+: tr) :
    Answers v tr' := fun a ha => h a (hsub.subset ha)

/-- **A full pass (proved).** -/
theorem since_visitAll (h : Since x ctx s₀ memo s)
    (hrun : Run nodeWorld s (visitAll x ctx memo ls) tr memo' s') (hfails : NoneFails x ctx tr) :
    Since x ctx s₀ memo' s' ∧ (∀ v, Assoc.get? v memo ≠ none → Assoc.get? v memo' ≠ none) ∧
      ∀ g ∈ ls, g.Reached ctx → Answers g.vmid tr → ∀ text doc, s₀.docs g.vmid = some text →
        parse x.docFromYaml text = .ok doc → Assoc.get? g.vmid memo' ≠ none := by
  induction ls generalizing memo s tr with
  | nil =>
    obtain ⟨rfl, rfl, rfl⟩ := run_pure.mp hrun
    exact ⟨h, fun _ hv => hv, nofun⟩
  | cons g ls ih =>
    obtain ⟨tr₁, memo₁, s₁, tr₂, rfl, hvisit, hrest⟩ := run_seq.mp hrun
    have hfails₁ := hfails.within (List.prefix_append tr₁ tr₂).isInfix
    have hv := visited_of_run hvisit hfails₁
    obtain ⟨hsince, hkeep, hall⟩ :=
      ih (h.visited hv) hrest (hfails.within (List.suffix_append tr₁ tr₂).isInfix)
    refine ⟨hsince, fun v hget => hkeep v (get?_visited hv hget), ?_⟩
    intro g' hg' hreached hanswers text doc hdoc hparse
    rcases List.mem_cons.mp hg' with rfl | hg'
    · exact hkeep _ (remembered_of_visited h hvisit hfails₁ hreached
        (hanswers.within (List.prefix_append tr₁ tr₂).isInfix) hdoc hparse)
    · exact hall g' hg' hreached (hanswers.within (List.suffix_append tr₁ tr₂).isInfix) text doc hdoc
        hparse

theorem Recorded.visitAll (h : Recorded s)
    (hrun : Run nodeWorld s (visitAll x ctx memo ls) tr memo' s') (hfails : NoneFails x ctx tr) :
    Recorded s' := by
  induction ls generalizing memo s tr with
  | nil =>
    obtain ⟨rfl, rfl, rfl⟩ := run_pure.mp hrun
    exact h
  | cons g ls ih =>
    obtain ⟨tr₁, memo₁, s₁, tr₂, rfl, hvisit, hrest⟩ := run_seq.mp hrun
    have hv := visited_of_run hvisit (hfails.within (List.prefix_append tr₁ tr₂).isInfix)
    exact ih (h.visited hv) hrest (hfails.within (List.suffix_append tr₁ tr₂).isInfix)

theorem run_pass {r : Result Unit × Memo} (h : Run nodeWorld s (pass x ctx memo) tr r s') :
    ∃ a : Result (List Listed), ∃ rest, tr = ⟨.list ctx.node, a⟩ :: rest ∧
      ((∃ e, a = .error e) ∧ rest = [] ∧ s' = s ∨
        ∃ ls, a = .ok ls ∧ Run nodeWorld s (visitAll x ctx memo ls) rest r.2 s') := by
  obtain ⟨tr₁, a, s₁, rest, rfl, hlist, hrest⟩ := run_seq.mp h
  obtain ⟨rfl, hreply⟩ := run_ask.mp hlist
  obtain rfl : s₁ = s := hreply
  refine ⟨a, rest, rfl, ?_⟩
  cases a with
  | error e =>
    obtain ⟨rfl, -, rfl⟩ := run_pure.mp hrest
    exact .inl ⟨⟨e, rfl⟩, rfl, rfl⟩
  | ok ls =>
    obtain ⟨tr₂, memo', s₂, tr₃, rfl, hall, hend⟩ := run_seq.mp hrest
    obtain ⟨rfl, rfl, rfl⟩ := run_pure.mp hend
    exact .inr ⟨ls, rfl, by simpa using hall⟩

/-! ### One turn -/

variable {st st' : LoopState} {answer : Option Text} {now : ℤ} {file : FileRead}

/-- The commands of a turn around its pass. -/
def Cmd.Aside : Cmd → Prop
  | .report _ | .now | .sleep _ => True
  | _ => False

theorem eq_of_aside {c : Cmd} {r : c.Answer} (hc : c.Aside) (h : Effect s c r s') : s' = s := by
  cases c with
  | report _ => exact h
  | now => exact h
  | sleep _ => exact h
  | _ => exact hc.elim

/-- **What a turn whose poll succeeds is (proved)**: a pass, or none, among commands that tell nothing;
the memo of a full pass is empty. -/
theorem run_afterPoll (h : Run nodeWorld s (iteration x l st) (afterPoll answer now file tr) st' s') :
    ∃ tr₁ tr₂ tr₃, tr = tr₁ ++ (tr₂ ++ tr₃) ∧ (∀ e ∈ tr₁ ++ tr₃, e.1.Aside) ∧
      ((∃ memo r, Run nodeWorld s (pass x (l.ctx st'.config) memo) tr₂ r s' ∧
          (fullDue l st now = true → memo = [])) ∨
        tr₂ = [] ∧ s' = s ∧ fullDue l st now = false) := by
  have hquiet : ∀ {α : Type} {p : Prog sig α} {s s' : Node} {tr : List (Event sig)} {a : α},
      Only Cmd.Aside p → Run nodeWorld s p tr a s' → s' = s ∧ ∀ e ∈ tr, e.1.Aside := by
    intro α p s s' tr a honly hrun
    have hsame : wp nodeWorld Unasked p (fun _ s₂ => s₂ = s) s :=
      wp_only honly (fun s₁ c r s₂ hc hs hr => (eq_of_aside hc hr).trans hs) (fun _ _ _ _ => trivial) rfl
    exact ⟨wp_run (Q := fun _ s₂ => s₂ = s) hsame hrun, only_events honly (yields_of_run hrun)⟩
  rw [iteration, afterPoll] at h
  obtain ⟨s₁, hs₁, h₁⟩ := run_askSeq.mp h
  obtain ⟨s₂, ⟨hs₂, -⟩, h₂⟩ := run_askSeq.mp h₁
  obtain ⟨s₃, hs₃, h₃⟩ := run_askSeq.mp h₂
  obtain ⟨s₄, ⟨hs₄, -⟩, h₄⟩ := run_askSeq.mp h₃
  have hsame : s₄ = s := hs₄.trans (Eq.trans hs₃ (hs₂.trans hs₁))
  rw [hsame] at h₄
  clear h h₁ h₂ h₃
  obtain ⟨tr₁, st₁, s₅, rest, rfl, hreload, hturn⟩ := run_seq.mp h₄
  have hreload' : Only Cmd.Aside (reload x st file) := by
    unfold reload
    split
    · split_ifs
      · exact only_bindProg ⟨trivial, fun _ => trivial⟩ fun _ => trivial
      · trivial
    · exact only_bindProg ⟨trivial, fun _ => trivial⟩ fun _ => trivial
  obtain ⟨hs₅, haside₁⟩ := hquiet hreload' hreload
  rw [hs₅] at hturn
  dsimp only at hturn
  split_ifs at hturn with hcond
  · obtain ⟨tr₂, st₂, s₆, rest₂, rfl, hfull, hpassed⟩ := run_seq.mp hturn
    have hfull' : Only Cmd.Aside (startFull st₁ (fullDue l st now)) := by
      unfold startFull
      split_ifs
      · exact only_bindProg ⟨trivial, fun _ => trivial⟩ fun _ => trivial
      · trivial
    obtain ⟨hs₆, haside₂⟩ := hquiet hfull' hfull
    rw [hs₆] at hpassed
    have hst₂ : fullDue l st now = true → st₂.memo = [] := by
      intro hdue
      rw [startFull, if_pos hdue] at hfull
      obtain ⟨_, t, _, _, -, -, hend⟩ := run_seq.mp hfull
      obtain ⟨-, rfl, -⟩ := run_pure.mp hend
      rfl
    obtain ⟨tr₃, st₃, s₇, rest₃, rfl, hpass, hslept⟩ := run_seq.mp hpassed
    obtain ⟨mid, ⟨r, memo⟩, s₉, tr₅, rfl, hmid, hsaid⟩ := run_seq.mp hpass
    have hend : (s₇ = s₉ ∧ ∀ e ∈ tr₅, e.1.Aside) ∧ st₃.config = st₂.config := by
      cases r with
      | error e =>
        obtain ⟨tr₆, u, s₁₀, _, rfl, hsay, hset⟩ := run_seq.mp hsaid
        obtain ⟨rfl, rfl, hs₇⟩ := run_pure.mp hset
        obtain ⟨hs₁₀, haside₆⟩ := hquiet (p := say ("pass failed: " ++ e.display))
          ⟨trivial, fun _ => trivial⟩ hsay
        rw [List.append_nil]
        exact ⟨⟨hs₇.trans hs₁₀, haside₆⟩, rfl⟩
      | ok u =>
        obtain ⟨rfl, rfl, rfl⟩ := run_pure.mp hsaid
        exact ⟨⟨rfl, fun _ he => absurd he List.not_mem_nil⟩, rfl⟩
    obtain ⟨⟨hs₇, haside₅⟩, hst'⟩ := hend
    obtain ⟨tr₄, u, s₈, rest₄, rfl, hsleep, hslept'⟩ := run_seq.mp hslept
    obtain ⟨rfl, rfl, hs'⟩ := run_pure.mp hslept'
    obtain ⟨hs₈, haside₄⟩ := hquiet (p := Prog.ask (S := sig) (.sleep l.interval))
      ⟨trivial, fun _ => trivial⟩ hsleep
    refine ⟨tr₁ ++ tr₂, mid, tr₅ ++ tr₄, by simp, ?_, .inl ⟨st₂.memo, (r, memo), ?_, hst₂⟩⟩
    · intro e he
      simp only [List.mem_append] at he
      rcases he with (he | he) | he | he
      · exact haside₁ e he
      · exact haside₂ e he
      · exact haside₅ e he
      · exact haside₄ e he
    · rw [hst', hs', hs₈, hs₇]
      exact hmid
  · obtain ⟨tr₂, st₂, s₆, rest₂, rfl, hpure, hslept⟩ := run_seq.mp hturn
    obtain ⟨rfl, rfl, hs₆⟩ := run_pure.mp hpure
    obtain ⟨tr₄, u, s₈, rest₄, rfl, hsleep, hend⟩ := run_seq.mp hslept
    obtain ⟨rfl, rfl, hs'⟩ := run_pure.mp hend
    obtain ⟨hs₈, haside₄⟩ := hquiet (p := Prog.ask (S := sig) (.sleep l.interval))
      ⟨trivial, fun _ => trivial⟩ hsleep
    refine ⟨tr₁, [], tr₄, by simp, ?_, .inr ⟨rfl, ?_, ?_⟩⟩
    · intro e he
      rcases List.mem_append.mp he with he | he
      · exact haside₁ e he
      · exact haside₄ e he
    · rw [hs', hs₈, hs₆]
    · exact Bool.not_eq_true _ ▸ fun hdue => hcond (.inr hdue)

theorem infix_afterPoll {tr₁ mid tr₃ : List (Event sig)} {e : Event sig} :
    mid <:+: afterPoll answer now file (tr₁ ++ (e :: mid ++ tr₃)) :=
  ⟨afterPoll answer now file (tr₁ ++ [e]), tr₃, by simp [afterPoll]⟩

/-- Every turn is one whose poll succeeds, or leaves the node as it is. -/
theorem run_iteration (h : Run nodeWorld s (iteration x l st) tr st' s') :
    s' = s ∨ ∃ answer now file rest, tr = afterPoll answer now file rest := by
  obtain ⟨tr₁, u, s₁, rest₁, rfl, hdog, h₁⟩ := run_seq.mp h
  obtain ⟨rfl, hs₁⟩ := run_ask.mp hdog
  obtain ⟨tr₂, r, s₂, rest₂, rfl, hpoll, h₂⟩ := run_seq.mp h₁
  obtain ⟨rfl, hs₂, -⟩ := run_ask.mp hpoll
  cases r with
  | error e =>
    obtain ⟨_, u, s₃, _, -, hsay, h₃⟩ := run_seq.mp h₂
    obtain ⟨_, u, s₄, _, -, hsleep, h₄⟩ := run_seq.mp h₃
    obtain ⟨-, hs₄⟩ := run_ask.mp hsleep
    obtain ⟨-, -, hs'⟩ := run_pure.mp h₄
    exact .inl (hs'.trans (Eq.trans hs₄ ((run_say hsay).trans (hs₂.trans hs₁))))
  | ok answer =>
    obtain ⟨tr₃, now, s₃, rest₃, rfl, hnow, h₃⟩ := run_seq.mp h₂
    obtain ⟨rfl, -⟩ := run_ask.mp hnow
    obtain ⟨tr₄, file, s₄, rest₄, rfl, hload, h₄⟩ := run_seq.mp h₃
    obtain ⟨rfl, -⟩ := run_ask.mp hload
    exact .inr ⟨answer, now, file, rest₄, rfl⟩

/-! ### Every run -/

/-- Runs of the loop, between two turns: documents and configs change, and no attempt of a turn
fails. -/
inductive LoopHistory (x : External) (l : LoopCtx) : LoopState → Node → Prop where
  | start {st : LoopState} {s : Node} : st.memo = [] → (∀ v, s.facts v = none) →
      LoopHistory x l st s
  | docs {st : LoopState} {s : Node} (docs : ℕ → Option Text) (token : Text) :
      LoopHistory x l st s → LoopHistory x l st { s with docs, token }
  | file {st : LoopState} {s : Node} (file : FileRead) : LoopHistory x l st s →
      LoopHistory x l st { s with file }
  | conf {st : LoopState} {s : Node} (vmid : ℕ) (conf : PveConfig) : LoopHistory x l st s →
      LoopHistory x l st (s.setConf vmid conf)
  | turn {st st' : LoopState} {s s' : Node} {tr : List (Event sig)} : LoopHistory x l st s →
      Run nodeWorld s (iteration x l st) tr st' s' → NoneFails x (l.ctx st'.config) tr →
      LoopHistory x l st' s'

/-- **The run lemma (proved).** -/
theorem recorded_of_history (h : LoopHistory x l st s) : Recorded s := by
  induction h with
  | start _ hf => exact fun v hv => absurd (hf v) hv
  | docs _ _ _ ih => exact ih
  | file _ _ ih => exact ih
  | conf _ _ _ ih => exact ih
  | turn _ hrun hfails ih =>
    rcases run_iteration hrun with hsame | ⟨answer, now, file, rest, rfl⟩
    · exact hsame ▸ ih
    · obtain ⟨tr₁, tr₂, tr₃, rfl, -, hend⟩ := run_afterPoll hrun
      rcases hend with ⟨memo, r, hpass, -⟩ | ⟨-, hsame, -⟩
      · obtain ⟨a, mid, rfl, hlist⟩ := run_pass hpass
        rcases hlist with ⟨-, -, hsame⟩ | ⟨ls, -, hall⟩
        · exact hsame ▸ ih
        · exact ih.visitAll hall (hfails.within infix_afterPoll)
      · exact hsame ▸ ih

/-- The file is what the guest should have for the document, under the config and the hostname of
now. -/
def UpToDate (x : External) (ctx : Ctx) (s : Node) (vmid : ℕ) (text : Text) (file : Option Text) :
    Prop :=
  ∃ g rendered, LoadedFrom x ctx (s.hostname vmid) vmid text g ∧
    renderGuest x ctx g = .ok rendered ∧ file = some rendered

/-- The visits of a full pass, seen from one guest. -/
theorem full_visits_iff {ls : List Listed} {g : Listed} {text : Text} {doc : Doc}
    (hrecorded : Recorded s) (hall : Run nodeWorld s (visitAll x ctx [] ls) tr memo' s')
    (hfails : NoneFails x ctx tr) (hg : g ∈ ls) (hreached : g.Reached ctx)
    (hanswers : Answers g.vmid tr) (hdoc : s.docs g.vmid = some text)
    (hparse : parse x.docFromYaml text = .ok doc) (hauto : doc.policy.docker = .auto) :
    UpToDate x ctx s' g.vmid text (s'.compose g.vmid) ↔
      (s.Named g.vmid (x.digest text) → UpToDate x ctx s g.vmid text (s.recorded g.vmid)) := by
  have hstart : Since x ctx s [] s := ⟨rfl, fun _ => rfl, fun v _ => .refl s v, nofun⟩
  obtain ⟨hsince, -, hcovered⟩ := since_visitAll hstart hall hfails
  obtain ⟨d, hget⟩ :=
    Option.ne_none_iff_exists'.mp (hcovered g hg hreached hanswers text doc hdoc hparse)
  obtain ⟨read, hread, hvmid, -, hsame, happlied⟩ := hsince.attempted _ _ hget
  -- what was attempted is the document that was there
  have htext : read.text = text := by
    have hnow := hread.text
    rw [hvmid, hdoc] at hnow
    exact (Option.some.inj hnow).symm
  have hpolicy : read.doc = doc := by
    have hnow := hread.doc
    rw [htext, hparse] at hnow
    exact (Except.ok.inj hnow).symm
  have hdigest : read.digest = x.digest text := htext ▸ hread.digest
  rw [hvmid, hdigest, hpolicy] at hsame happlied
  rw [htext] at happlied
  by_cases hn : s.Named g.vmid (x.digest text)
  · have hinside := hsame fun _ => hn
    have hcompose : s.compose g.vmid = s.recorded g.vmid := by
      obtain ⟨f, hf, -⟩ := hn
      exact hrecorded g.vmid (hf ▸ nofun)
    have hiff : UpToDate x ctx s' g.vmid text (s'.compose g.vmid) ↔
        UpToDate x ctx s g.vmid text (s.recorded g.vmid) := by
      unfold UpToDate
      rw [hsince.hostname, hinside.compose, hcompose]
    exact hiff.trans ⟨fun h _ => h, fun h => h hn⟩
  · obtain ⟨g', rendered, hg', hrender, hcompose, -⟩ := happlied hauto hn
    exact ⟨fun _ h => absurd h hn, fun _ => ⟨g', rendered, hg', hrender, hcompose⟩⟩

/-- **What a full pass leaves (proved)**: in every run, right after a turn in which a full pass is due,
a guest the pass looked at, whose document is accepted and has docker `auto`, has the compose
file it should have if and only if its facts did not name the document before, or the file
recorded with them is what the document renders to now. -/
theorem full_pass_up_to_date_iff {ls : List Listed} {g : Listed} {text : Text} {doc : Doc}
    (h : LoopHistory x l st s)
    (hrun : Run nodeWorld s (iteration x l st) (afterPoll answer now file tr) st' s')
    (hfull : fullDue l st now = true)
    (hfails : NoneFails x (l.ctx st'.config) (afterPoll answer now file tr))
    (hlist : (⟨.list l.node, (.ok ls : Result (List Listed))⟩ : Event sig) ∈ tr) (hg : g ∈ ls)
    (hreached : g.Reached (l.ctx st'.config)) (hanswers : Answers g.vmid tr)
    (hdoc : s.docs g.vmid = some text) (hparse : parse x.docFromYaml text = .ok doc)
    (hauto : doc.policy.docker = .auto) :
    UpToDate x (l.ctx st'.config) s' g.vmid text (s'.compose g.vmid) ↔
      (s.Named g.vmid (x.digest text) →
        UpToDate x (l.ctx st'.config) s g.vmid text (s.recorded g.vmid)) := by
  obtain ⟨tr₁, tr₂, tr₃, rfl, haside, hend⟩ := run_afterPoll hrun
  rcases hend with ⟨memo, r, hpass, hmemo⟩ | ⟨-, -, hdue⟩
  swap
  · exact absurd (hfull.symm.trans hdue) (by decide)
  obtain rfl := hmemo hfull
  obtain ⟨a, mid, rfl, hpassed⟩ := run_pass hpass
  -- the list that was answered is the one the pass began with
  have hmem : (⟨.list l.node, (.ok ls : Result (List Listed))⟩ : Event sig)
      ∈ ⟨.list (l.ctx st'.config).node, a⟩ :: mid := by
    simp only [List.mem_append] at hlist haside
    rcases hlist with hl | hl | hl
    · exact (haside _ (.inl hl)).elim
    · exact hl
    · exact (haside _ (.inr hl)).elim
  obtain ⟨rfl, hall⟩ : a = .ok ls ∧ Run nodeWorld s (visitAll x (l.ctx st'.config) [] ls) mid r.2 s' := by
    rcases List.mem_cons.mp hmem with heq | hmid
    · cases heq
      rcases hpassed with ⟨⟨e, he⟩, -⟩ | ⟨ls', hls, hall⟩
      · cases he
      · cases hls
        exact ⟨rfl, hall⟩
    · rcases hpassed with ⟨-, rfl, -⟩ | ⟨ls', -, hall⟩
      · exact absurd hmid List.not_mem_nil
      · -- the walk asks for no list
        rcases visitAll_only (yields_of_run hall) _ hmid with ⟨g', -, -, hget⟩ | hatt
        · cases hget
        · exact hatt.elim
  refine full_visits_iff (recorded_of_history h) hall (hfails.within infix_afterPoll) hg hreached
    (hanswers.within ?_) hdoc hparse hauto
  exact ⟨tr₁ ++ [⟨.list (l.ctx st'.config).node, .ok ls⟩], tr₃, by simp⟩

/-! ### A hostname between two full passes -/

/-- Guest 105 has a document, and nothing is inside it yet. -/
def newNode : Node where
  docs v := if v = 105 then some (webText "nginx") else none
  token := "1"
  file := .notFound
  conf _ := webConf
  compose _ := none
  facts _ := none
  recorded _ := none

def newState : LoopState where
  config := Config.default
  lastToken := []
  lastFull := -600 * 10 ^ 9
  memo := []

/-- The node answers, `now` is the time, and guest 105 is in the list. -/
def driftScript (now : ℤ) : Script := { now, listed := [webListed], upFails := false }

/-- The trace of a turn after the config was read. -/
def turnTail (now : ℤ) (st : LoopState) (s : Node) : List (Event sig) :=
  ((iteration webExternal webLoopCtx st).trace (driftScript now).answer s).drop 4

def turned (now : ℤ) (st : LoopState) (s : Node) : LoopState × Node :=
  (iteration webExternal webLoopCtx st).interpret (driftScript now).answer s

theorem turned_run (now : ℤ) (st : LoopState) (s : Node) :
    Run nodeWorld s (iteration webExternal webLoopCtx st)
      (afterPoll (some s.token) now s.file (turnTail now st s)) (turned now st s).1
      (turned now st s).2 :=
  run_trace (W := nodeWorld) (driftScript now).answer_effect _ s

def turnOne : LoopState × Node := turned 0 newState newNode

/-- The hostname changes. -/
def wwwConf : PveConfig where
  fields := [("hostname", .string "www"), ("features", .string "keyctl=1,nesting=1"),
    ("unprivileged", .other "1")]
  distinct := by
    show (["hostname".toList, "features".toList, "unprivileged".toList] : List Text).Nodup
    decide
  small := by
    show 3 ≤ MAX_OUTPUT
    decide

def renamed : Node := turnOne.2.setConf 105 wwwConf

def turnTwo : LoopState × Node := turned (600 * 10 ^ 9) turnOne.1 renamed

/-- The list is answered with guest 105, and no document read fails. -/
def answering (tr : List (Event sig)) : Bool :=
  (tr.any fun
    | ⟨.list node, a⟩ => node = "pve".toList ∧ a.toOption = some [webListed]
    | _ => false) &&
  tr.all fun
    | ⟨.metaGet _, a⟩ => a.toOption.any fun out => out.status = 0 ∨ out.status = 2
    | _ => true

theorem list_of_answering (h : answering tr = true) :
    (⟨.list "pve", (.ok [webListed] : Result (List Listed))⟩ : Event sig) ∈ tr := by
  obtain ⟨⟨c, r⟩, he, hlist⟩ := List.any_eq_true.mp (Bool.and_eq_true_iff.mp h).1
  cases c with
  | list node =>
    obtain ⟨rfl, hr⟩ := of_decide_eq_true hlist
    cases r with
    | error e => exact absurd hr nofun
    | ok ls =>
      obtain rfl : ls = [webListed] := Option.some.inj hr
      exact he
  | _ => exact absurd hlist Bool.false_ne_true

theorem answers_of_answering {v : ℕ} (h : answering tr = true) : Answers v tr := by
  intro a ha
  have hall := List.all_eq_true.mp (Bool.and_eq_true_iff.mp h).2 _ ha
  obtain ⟨out, hout, hstatus⟩ := (Option.any_eq_true _ _).mp hall
  cases a with
  | error e => exact absurd hout nofun
  | ok out' =>
    obtain rfl : out' = out := Option.some.inj hout
    exact ⟨out', rfl, of_decide_eq_true hstatus⟩

theorem webListed_reached (c : Config) : webListed.Reached (webLoopCtx.ctx c) :=
  ⟨by decide, by decide, rfl⟩

theorem turnOne_run : Run nodeWorld newNode (iteration webExternal webLoopCtx newState)
    (afterPoll (some newNode.token) 0 newNode.file (turnTail 0 newState newNode)) turnOne.1 turnOne.2 :=
  turned_run 0 newState newNode

theorem turnTwo_run : Run nodeWorld renamed (iteration webExternal webLoopCtx turnOne.1)
    (afterPoll (some renamed.token) (600 * 10 ^ 9) renamed.file
      (turnTail (600 * 10 ^ 9) turnOne.1 renamed)) turnTwo.1 turnTwo.2 :=
  turned_run (600 * 10 ^ 9) turnOne.1 renamed

theorem turnOne_noneFails : NoneFails webExternal (webLoopCtx.ctx turnOne.1.config)
    (afterPoll (some newNode.token) 0 newNode.file (turnTail 0 newState newNode)) :=
  noneFails_of_noneFailing (by decide +kernel)

theorem renamed_history : LoopHistory webExternal webLoopCtx turnOne.1 renamed :=
  .conf 105 wwwConf (.turn (.start rfl fun _ => rfl) turnOne_run turnOne_noneFails)

/-- The first full pass applies the document. -/
theorem full_pass_up_to_date_web :
    UpToDate webExternal (webLoopCtx.ctx turnOne.1.config) turnOne.2 webListed.vmid (webText "nginx")
      (turnOne.2.compose webListed.vmid) := by
  have hanswering : answering (turnTail 0 newState newNode) = true := by decide +kernel
  have hdue : fullDue webLoopCtx newState 0 = true := by decide
  have hstart : LoopHistory webExternal webLoopCtx newState newNode := .start rfl fun _ => rfl
  have hdoc : newNode.docs webListed.vmid = some (webText "nginx") := by decide
  have hiff := full_pass_up_to_date_iff hstart turnOne_run hdue turnOne_noneFails
    (list_of_answering hanswering) (List.mem_singleton_self _) (webListed_reached _)
    (answers_of_answering hanswering) hdoc web_parse_nginx rfl
  refine hiff.mpr ?_
  rintro ⟨f, hf, -⟩
  exact absurd hf nofun

/-- What is checked of the second turn: it is a full one in which nothing fails, and it leaves the
file of the old name. -/
def turnTwoChecked : Bool :=
  noneFailing webExternal (webLoopCtx.ctx turnTwo.1.config)
      (afterPoll (some renamed.token) (600 * 10 ^ 9) renamed.file
        (turnTail (600 * 10 ^ 9) turnOne.1 renamed)) &&
    (answering (turnTail (600 * 10 ^ 9) turnOne.1 renamed) &&
      (fullDue webLoopCtx turnOne.1 (600 * 10 ^ 9) &&
        decide (turnTwo.1.config = Config.default ∧ renamed.docs 105 = some (webText "nginx") ∧
          turnTwo.2.hostname 105 = some "www".toList ∧
            turnTwo.2.compose 105 = some (webRendered "nginx"))))

theorem turnTwo_checked : turnTwoChecked = true := by decide +kernel

/-- The guest with its new name. -/
def wwwGuest : Guest :=
  { webGuest "nginx" with config := { emptyConfig 105 with hostname := some "www" } }

theorem wwwGuest_loaded : LoadedFrom webExternal (webLoopCtx.ctx Config.default) (some "www".toList) 105
    (webText "nginx") wwwGuest :=
  ⟨rfl, rfl, rfl, web_parse_nginx, rfl⟩

theorem wwwGuest_render : renderGuest webExternal (webLoopCtx.ctx Config.default) wwwGuest
    ≠ .ok (webRendered "nginx") := by decide +kernel

theorem not_upToDate {vmid : ℕ} {text other : Text} {g : Guest} {host : Option Text}
    (hhost : s.hostname vmid = host) (hg : LoadedFrom x ctx host vmid text g)
    (hother : renderGuest x ctx g ≠ .ok other) : ¬ UpToDate x ctx s vmid text (some other) := by
  rintro ⟨g', rendered, hg', hrender, hfile⟩
  rw [hhost] at hg'
  rw [renderGuest_eq hg' hg, ← Option.some.inj hfile] at hrender
  exact hother hrender

/-- **A hostname that changed is not rendered**: the second full pass finds facts that name the
document, and leaves the file with the old name. -/
theorem full_pass_leaves_drift :
    LoopHistory webExternal webLoopCtx turnOne.1 renamed ∧
      Run nodeWorld renamed (iteration webExternal webLoopCtx turnOne.1)
        (afterPoll (some renamed.token) (600 * 10 ^ 9) renamed.file
          (turnTail (600 * 10 ^ 9) turnOne.1 renamed)) turnTwo.1 turnTwo.2 ∧
      fullDue webLoopCtx turnOne.1 (600 * 10 ^ 9) = true ∧
      NoneFails webExternal (webLoopCtx.ctx turnTwo.1.config)
        (afterPoll (some renamed.token) (600 * 10 ^ 9) renamed.file
          (turnTail (600 * 10 ^ 9) turnOne.1 renamed)) ∧
      (⟨.list "pve", (.ok [webListed] : Result (List Listed))⟩ : Event sig)
        ∈ turnTail (600 * 10 ^ 9) turnOne.1 renamed ∧
      webListed.Reached (webLoopCtx.ctx turnTwo.1.config) ∧
      renamed.docs 105 = some (webText "nginx") ∧
      ¬ UpToDate webExternal (webLoopCtx.ctx turnTwo.1.config) turnTwo.2 105 (webText "nginx")
        (turnTwo.2.compose 105) := by
  obtain ⟨hfails, hchecked⟩ := Bool.and_eq_true_iff.mp turnTwo_checked
  obtain ⟨hanswering, hchecked⟩ := Bool.and_eq_true_iff.mp hchecked
  obtain ⟨hdue, hchecked⟩ := Bool.and_eq_true_iff.mp hchecked
  obtain ⟨hconfig, hdoc, hhost, hcompose⟩ := of_decide_eq_true hchecked
  have hdrift := not_upToDate hhost wwwGuest_loaded wwwGuest_render
  refine ⟨renamed_history, turnTwo_run, hdue, noneFails_of_noneFailing hfails,
    list_of_answering hanswering, webListed_reached _, hdoc, ?_⟩
  rw [hconfig, hcompose]
  exact hdrift

end PveCompose
