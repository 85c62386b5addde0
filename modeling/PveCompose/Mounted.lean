import PveCompose.Keep
import PveCompose.Node

/-!
# Volumes are mounted before compose binds them

`docker compose up` binds the directory of every volume, whatever is mounted there.  Where the pct
half runs first, each of its calls keeps what is already at a directory in its place, and each
create puts one more there:

* `Placed.performs` — **the step lemma**: a performed call of a plan leaves every directory that
  holds a line holding one;
* `placed_of_plan` — **the run lemma**: after all calls of a plan, every disk and bind volume has a
  line under a mount key, at its directory;
* `up_after_mounts` — **PROVED**: whatever fails on the way, when the bare `apply` or `upgrade`
  brings the stack up, or the loop does for a document with pct `auto`, every disk and bind volume
  is mounted at its directory; and `pct apply` never brings it up;
* `up_without_mounts` — `docker apply` on a guest with nothing mounted.
-/

namespace PveCompose

open Programs

/-- Something is mounted at the directory of the volume. -/
def Mounted (conf : PveConfig) (v : Volume) : Prop :=
  ∃ k m, conf.mountOf k = some m ∧ m.mp = some v.dir

/-! ### Along the calls of a plan -/

/-- Under some mount key there is a line that, if it reads, is a mount at `dir`; and so was, if
there was one, the mount read there into `g`. -/
def Placed (g : GuestConfig) (conf : PveConfig) (dir : Text) : Prop :=
  ∃ k v, isMountKey k = true ∧ conf.get? k = some v ∧
    (∀ m, Mount.parse k v.text = .ok m → m.mp = some dir) ∧
      ∀ m ∈ g.mounts, m.key = k → m.mp = some dir

/-- What every call of a plan over `g` finds: the counter is right and no mount key is gone. -/
structure Midway (g : GuestConfig) (next : ℕ) (conf : PveConfig) : Prop where
  counted : Counted g next conf
  held : ∀ m ∈ g.mounts, (conf.get? m.key).isSome

theorem midway_start {vmid : ℕ} {conf : PveConfig} {g : GuestConfig}
    (hread : parseConfig vmid conf = .ok g) : Midway g g.freeMpIndex conf := by
  refine ⟨counted_start hread, fun m hm => ?_⟩
  obtain ⟨-, v, hv, -⟩ := (parseConfig_ok hread).mem_mounts.mp hm
  rw [hv]
  rfl

section Step

variable {i : Inputs} {next vmid : ℕ} {conf₀ conf conf' : PveConfig} {op : Op} {dir : Text}

/-- The mount an operation rewrites is one of those that were read. -/
theorem mem_mounts_of_setBackup {m : Mount} {backup : Bool} (hop : .setBackup m backup ∈ planOps i) :
    m ∈ i.guest.mounts := by
  rcases op_cases hop with h | ⟨t, -, h⟩ | ⟨v, -, h⟩
  · cases h
  · cases h
  · cases h with
    | setBackup _ hm _ _ => exact (mountAt_eq_some hm).1

theorem Midway.performs (h : Midway i.guest next conf) (hop : op ∈ planOps i)
    (hp : Performs AllocatedAs conf conf' op (opCall i.guest next op).1) :
    Midway i.guest (opCall i.guest next op).2 conf' := by
  obtain ⟨line, hs⟩ := hp.stored
  refine ⟨h.counted.performs hp ?_, fun m hm => PveConfig.isSome_stored hs (h.held m hm)⟩
  rintro m b rfl
  exact h.held m (mem_mounts_of_setBackup hop)

/-- A fresh key is no key of the mounts that were read. -/
theorem Midway.key_ne (h : Midway i.guest next conf) {m : Mount} (hm : m ∈ i.guest.mounts) :
    m.key ≠ mpKey (takeIndex i.guest.usedIndexes next) := by
  intro hkey
  have hsome := h.held m hm
  rw [hkey, h.counted.fresh] at hsome
  exact Bool.noConfusion hsome

/-- **The step lemma (proved).**  A performed call leaves what is at a directory there. -/
theorem Placed.performs (hread : parseConfig vmid conf₀ = .ok i.guest)
    (h : Midway i.guest next conf) (hop : op ∈ planOps i)
    (hp : Performs AllocatedAs conf conf' op (opCall i.guest next op).1)
    (hd : Placed i.guest conf dir) : Placed i.guest conf' dir := by
  obtain ⟨k, v, hk, hv, hline, hwas⟩ := hd
  -- a line is moved only by writing under its own key
  have hother : ∀ {key line : Text}, PveConfig.Stored key line conf conf' → k ≠ key →
      Placed i.guest conf' dir := by
    intro key line hs hne
    exact ⟨k, v, hk, by rw [hs k, if_neg hne, hv], hline, hwas⟩
  have hown : ∀ {line : Text}, PveConfig.Stored k line conf conf' →
      (∀ m, Mount.parse k line = .ok m → m.mp = some dir) → Placed i.guest conf' dir := by
    intro line hs hmp
    exact ⟨k, .string line, hk, by rw [hs k, if_pos rfl], hmp, hwas⟩
  have hnames : ∀ {name : Text}, isMountKey name = false → k ≠ name := by
    rintro name hn rfl
    rw [hk] at hn
    exact Bool.noConfusion hn
  have hfresh : k ≠ mpKey (takeIndex i.guest.usedIndexes next) := by
    rintro rfl
    rw [h.counted.fresh] at hv
    cases hv
  cases op with
  | setFeatures s =>
    cases hp with
    | setFeatures hs => exact hother hs (hnames (by decide))
  | addTag t =>
    cases hp with
    | addTag hs => exact hother hs (hnames (by decide))
  | createDisk mp st size b =>
    cases hp with
    | createDisk _ hs => exact hother hs hfresh
  | createBind mp path =>
    cases hp with
    | createBind hs => exact hother hs hfresh
  | resize key mp old new =>
    cases hp with
    | @resize _ _ _ _ _ line m₀ hm₀ hparse hs =>
      by_cases hkey : k = key
      · subst hkey
        obtain ⟨-, v', hv', hp'⟩ := PveConfig.mountOf_eq_some_iff.mp hm₀
        obtain rfl : v = v' := Option.some.inj (hv.symm.trans hv')
        refine hown hs fun m hm => ?_
        rw [hparse] at hm
        cases hm
        exact hline m₀ hp'
      · exact hother hs hkey
  | setBackup m₀ b =>
    cases hp with
    | setBackup hs =>
      by_cases hkey : k = m₀.key
      · subst hkey
        have hmem := mem_mounts_of_setBackup hop
        have hw := (parseConfig_ok hread).written hmem
        refine hown hs fun m hm => ?_
        rw [Mount.parse_display (hw.withBackup b)] at hm
        split_ifs at hm
        · exact absurd hm bail_ne_ok
        · cases hm
          exact hwas m₀ hmem rfl
      · exact hother hs hkey

/-- A performed create puts a line at its directory. -/
theorem Placed.created (h : Midway i.guest next conf) (hcomma : ',' ∉ dir)
    (hop : op.created = some dir)
    (hp : Performs AllocatedAs conf conf' op (opCall i.guest next op).1) :
    Placed i.guest conf' dir := by
  have hput : ∀ {line : Text},
      PveConfig.Stored (mpKey (takeIndex i.guest.usedIndexes next)) line conf conf' →
      (∀ m, Mount.parse (mpKey (takeIndex i.guest.usedIndexes next)) line = .ok m →
        m.mp = some dir) → Placed i.guest conf' dir := by
    intro line hs hmp
    exact ⟨_, .string line, isMountKey_mpKey _, by rw [hs, if_pos rfl], hmp,
      fun m hm hkey => absurd hkey (h.key_ne hm)⟩
  cases op with
  | createDisk mp st size b =>
    cases hop
    cases hp with
    | createDisk ha hs =>
      refine hput hs fun m hm => ?_
      rcases ha with rfl | ha
      · exact mp_of_parse_diskSpec hcomma hm
      · cases ha with
        | own hline _ hmp _ _ =>
          rw [hline] at hm
          cases hm
          exact hmp
  | createBind mp path =>
    cases hop
    cases hp with
    | createBind hs => exact hput hs fun m hm => mp_of_parse_bindSpec hcomma hm
  | _ => cases hop

/-- Along the calls of a plan, what is at a directory stays and what is created comes. -/
theorem placed_of_performsAll {ops : List Op} (hread : parseConfig vmid conf₀ = .ok i.guest)
    (hops : ∀ op ∈ ops, op ∈ planOps i) (h : Midway i.guest next conf) (hcomma : ',' ∉ dir)
    (hd : Placed i.guest conf dir ∨ ∃ op ∈ ops, op.created = some dir)
    (hp : PerformsAll AllocatedAs conf (callsFrom i.guest next ops) conf') :
    Placed i.guest conf' dir := by
  induction ops generalizing next conf with
  | nil =>
    cases hp
    rcases hd with hd | ⟨op, hop, -⟩
    · exact hd
    · exact absurd hop List.not_mem_nil
  | cons op ops ih =>
    cases hp with
    | cons hop hrest =>
      have hmem := hops op (by simp)
      refine ih (fun op' h' => hops op' (by simp [h'])) (h.performs hmem hop) ?_ hrest
      rcases hd with hd | ⟨op', hop', hcreated⟩
      · exact .inl (hd.performs hread h hmem hop)
      · rcases List.mem_cons.mp hop' with rfl | hop'
        · exact .inl (.created h hcomma hcreated hop)
        · exact .inr ⟨op', hop', hcreated⟩

end Step

/-- **The run lemma (proved).**  After all calls of a plan, every disk and bind volume has its
line. -/
theorem placed_of_plan {i : Inputs} {p : Plan} {vmid : ℕ} {conf conf' : PveConfig} {v : Volume}
    (hread : parseConfig vmid conf = .ok i.guest) (hplan : build i = .ok p)
    (hp : PerformsAll AllocatedAs conf (execute i.guest p) conf') (hv : v ∈ i.volumes)
    (hname : validVolumeName v.name = true) (hkind : v.kind ≠ .plain) :
    Placed i.guest conf' v.dir := by
  have hr := parseConfig_ok hread
  rw [execute, (build_ok hplan).2] at hp
  refine placed_of_performsAll hread (fun _ h => h) (midway_start hread) (comma_not_mem_dir hname)
    ?_ hp
  cases hheld : i.guest.mountAt v.dir with
  | some m =>
    obtain ⟨hmem, hmp⟩ := mountAt_eq_some hheld
    obtain ⟨hk, line, hline, hparse⟩ := hr.mem_mounts.mp hmem
    refine .inl ⟨m.key, line, hk, hline, fun m' hm' => ?_, fun m' hm' hkey => ?_⟩
    · rw [hparse] at hm'
      cases hm'
      exact hmp
    · rw [hr.eq_of_key hm' hmem hkey]
      exact hmp
  | none =>
    -- nothing is there: the plan creates it
    have hcreate : ∃ op ∈ volumeOps i v none, op.created = some v.dir := by
      unfold volumeOps
      cases hk : v.kind with
      | plain => exact absurd hk hkind
      | bind path => exact ⟨_, List.mem_singleton_self _, rfl⟩
      | disk storage size =>
        obtain ⟨st, hst⟩ := (build_isOk_iff.mp ⟨p, hplan⟩).2 v hv storage size hk
        dsimp only
        rw [hst]
        exact ⟨_, List.mem_singleton_self _, rfl⟩
    obtain ⟨op, hop, hcreated⟩ := hcreate
    refine .inr ⟨op, ?_, hcreated⟩
    exact List.mem_append_right _ (List.mem_flatMap.mpr ⟨v, hv, by rw [hheld]; exact hop⟩)

/-- What is placed in a config that reads is mounted. -/
theorem mounted_of_placed {g g' : GuestConfig} {vmid : ℕ} {conf : PveConfig} {v : Volume}
    (hread : parseConfig vmid conf = .ok g') (h : Placed g conf v.dir) : Mounted conf v := by
  obtain ⟨k, line, hk, hline, hmp, -⟩ := h
  obtain ⟨m, hm⟩ := parseConfig_isOk_iff.mp ⟨g', hread⟩ k line hline (.inr hk)
  exact ⟨k, m, PveConfig.mountOf_eq_some_iff.mpr ⟨hk, line, hline, hm⟩, hmp m hm⟩

/-! ### The verbs -/

variable (x : External)

/-- A run of one of the verbs, or of one pass of the loop. -/
inductive Session where
  | pctApply : Session
  | dockerApply : Options → Session
  | apply : Options → Session
  | dockerUpgrade : Options → Session
  | upgrade : Options → Session
  | pass : Memo → Session

/-- In a session on the guest that began in `s`, the command `c` is issued in `s'`. -/
def Session.Issues (ctx : Ctx) (vmid : ℕ) (s s' : Node) (c : Cmd) : Session → Prop
  | .pctApply => Programs.Issues nodeWorld s (PveCompose.pctApply x ctx vmid).run s' c
  | .dockerApply o => Programs.Issues nodeWorld s (PveCompose.dockerApply x ctx vmid o).run s' c
  | .apply o => Programs.Issues nodeWorld s (PveCompose.apply x ctx vmid o).run s' c
  | .dockerUpgrade o => Programs.Issues nodeWorld s (PveCompose.dockerUpgrade x ctx vmid o).run s' c
  | .upgrade o => Programs.Issues nodeWorld s (PveCompose.upgrade x ctx vmid o).run s' c
  | .pass memo => Programs.Issues nodeWorld s (PveCompose.pass x ctx memo) s' c

/-- Whether the session runs the pct half before the docker half of a document with the policy. -/
def Session.RunsPct (policy : Policy) : Session → Prop
  | .pctApply | .apply _ | .upgrade _ => True
  | .dockerApply _ | .dockerUpgrade _ => False
  | .pass _ => policy.pct = .auto

/-- Every disk and bind volume of the guest's document, if its policy is one of `P`, is mounted. -/
def AllMounted (ctx : Ctx) (P : Policy → Prop) (s : Node) (vmid : ℕ) : Prop :=
  ∀ text doc vols, s.docs vmid = some text → parse x.docFromYaml text = .ok doc →
    volumes doc.spec ctx.limits = .ok vols → P doc.policy →
      ∀ v ∈ vols, v.kind ≠ .plain → Mounted (s.conf vmid) v

/-- What is asked of every command: the stack is brought up over mounted volumes only. -/
def UpMounted (ctx : Ctx) (P : Policy → Prop) (s : Node) (c : Cmd) : Prop :=
  ∀ vmid, c = .up vmid → AllMounted x ctx P s vmid

variable {x}

theorem upMounted_of_ne {ctx : Ctx} {P : Policy → Prop} (s : Node) (c : Cmd)
    (hc : ∀ v, c ≠ .up v) : UpMounted x ctx P s c :=
  fun v hv => absurd hv (hc v)

theorem upMounted_of_plain {ctx : Ctx} {P : Policy → Prop} (s : Node) (c : Cmd) (hc : c.Plain) :
    UpMounted x ctx P s c := by
  rintro v rfl
  exact hc.elim

section

variable {ctx : Ctx} {P : Policy → Prop} {s : Node}

/-- A loaded guest whose volumes are mounted is what the docker half asks for. -/
theorem allMounted_of_loaded {g : Guest} (hread : ReadNow x s g.read) (hg : LoadedNow ctx s g)
    (hm : P g.read.doc.policy → ∀ v ∈ g.volumes, v.kind ≠ .plain → Mounted (s.conf g.vmid) v) :
    AllMounted x ctx P s g.vmid := by
  intro text doc vols htext hdoc hvols hP
  rw [hg.vmid] at htext
  obtain rfl : g.read.text = text := Option.some.inj (hread.text.symm.trans htext)
  obtain rfl : g.read.doc = doc := Except.ok.inj (hread.doc.symm.trans hdoc)
  obtain rfl : g.volumes = vols := Except.ok.inj (hg.volumes.symm.trans hvols)
  exact hm hP

/-- The docker half of a guest whose volumes are mounted. -/
theorem wp_docker_mounted {g : Guest} {o : Options} (hm : AllMounted x ctx P s g.vmid) :
    wp nodeWorld (UpMounted x ctx P) (dockerApplyGuest x ctx g o).run
      (Ends (fun _ _ => True) fun _ _ => True) s := by
  rw [ends_eta fun _ _ => True]
  refine wp_mono (wp_dockerApplyGuest upMounted_of_ne fun text _ => ?_) fun _ _ _ => trivial
  rintro vmid ⟨⟩
  exact hm

/-- The pct half, with the config read again: every disk and bind volume is mounted after it. -/
theorem wp_pct_mounted {g : Guest} (hread : ReadNow x s g.read) (hg : LoadedNow ctx s g) :
    wp nodeWorld (UpMounted x ctx P) (pctApplyGuest ctx g).run
      (Ends (fun n s' => wp nodeWorld (UpMounted x ctx P) (refreshIfChanged ctx g n).run
        (Ends (fun g' s'' => g'.read = g.read ∧ g'.vmid = g.vmid ∧ AllMounted x ctx P s'' g.vmid)
          fun _ _ => True) s') fun _ _ => True) s := by
  have hvmid := hg.vmid
  refine wp_ends_mono (wp_pctApplyGuest upMounted_of_ne) ?_ fun _ _ _ => trivial
  rintro n s' ⟨p, conf', hplan, rfl, hp, rfl⟩
  rw [hvmid] at hp
  have hplaced : ∀ v ∈ g.volumes, v.kind ≠ .plain → Placed g.config conf' v.dir := fun v hv hkind =>
    placed_of_plan (i := pctInputs ctx g) hg.config hplan hp hv
      (volumes_allowed hg.volumes v hv).name hkind
  -- in a config that reads, the document's volumes are mounted
  have hall : ∀ g' : GuestConfig, parseConfig g.vmid conf' = .ok g' →
      AllMounted x ctx P (s.setConf g.vmid conf') g.vmid := by
    intro g' hg' text doc vols htext hdoc hvols _ v hv hkind
    rw [hvmid] at htext
    obtain rfl : g.read.text = text := Option.some.inj (hread.text.symm.trans htext)
    obtain rfl : g.read.doc = doc := Except.ok.inj (hread.doc.symm.trans hdoc)
    obtain rfl : g.volumes = vols := Except.ok.inj (hg.volumes.symm.trans hvols)
    rw [Node.setConf_conf]
    exact mounted_of_placed hg' (hplaced v hv hkind)
  rw [refreshIfChanged]
  split_ifs with hn
  · rw [refreshConfig, wp_bind]
    refine wp_ends_mono (wp_readConfig upMounted_of_ne) ?_ fun _ _ _ => trivial
    rintro config s'' ⟨rfl, hconfig⟩
    change parseConfig g.vmid ((s.setConf g.vmid conf').conf g.vmid) = .ok config at hconfig
    rw [Node.setConf_conf] at hconfig
    exact ⟨rfl, (parseConfig_ok hconfig).vmid, hall config hconfig⟩
  · -- nothing was to do: the config is the one that was read
    have hops : p.ops = [] := List.length_eq_zero_iff.mp (by omega)
    rw [execute, hops] at hp
    cases hp
    exact ⟨rfl, rfl, hall g.config (by rw [hvmid]; exact hg.config)⟩

/-- Both halves of a loaded guest. -/
theorem wp_applyLocked {vmid : ℕ} {o : Options} :
    wp nodeWorld (UpMounted x ctx P) (applyLocked x ctx vmid o).run
      (Ends (fun _ _ => True) fun _ _ => True) s := by
  rw [applyLocked]
  refine wp_plain_bind (plain_requireRunning _ _) upMounted_of_plain (fun _ => ?_) fun _ => trivial
  rw [wp_bind]
  refine wp_ends_mono (wp_load upMounted_of_ne) ?_ fun _ _ _ => trivial
  rintro g s' ⟨rfl, -, hread, hg⟩
  rw [wp_bind]
  refine wp_ends_mono (wp_pct_mounted hread hg) ?_ fun _ _ _ => trivial
  intro n s₁ hn
  rw [wp_bind]
  refine wp_ends_mono hn ?_ fun _ _ _ => trivial
  rintro g' s₂ ⟨-, hvmid, hall⟩
  rw [wp_bind]
  rw [← hvmid] at hall
  exact wp_ends_mono (wp_docker_mounted hall) (fun _ _ _ => trivial) fun _ _ _ => trivial

end

/-- The attempt of the loop, for the document the store has. -/
theorem wp_attempt_mounted {ctx : Ctx} {vmid : ℕ} {read : Read} {s : Node}
    (hread : ReadNow x s read) :
    wp nodeWorld (UpMounted x ctx fun policy => policy.pct = .auto) (attempt x ctx vmid read).run
      (fun _ _ => True) s := by
  refine wp_withLock (upMounted_of_ne _ _ nofun) (fun s => upMounted_of_ne _ _ nofun) ?_
    fun _ => trivial
  rw [← ends_eta fun _ _ => True, wp_bind]
  refine wp_ends_mono (wp_loadWith upMounted_of_ne) ?_ fun _ _ _ => trivial
  rintro g s' ⟨rfl, rfl, hg⟩
  rw [wp_bind, pctHalf]
  have hdocker : ∀ {g' : Guest} {s₂ : Node},
      AllMounted x ctx (fun policy => policy.pct = .auto) s₂ g'.vmid →
      wp nodeWorld (UpMounted x ctx fun policy => policy.pct = .auto) (dockerHalf x ctx g').run
        (Ends (fun _ _ => True) fun _ _ => True) s₂ := by
    intro g' s₂ hall
    rw [ends_eta fun _ _ => True]
    refine wp_mono (wp_dockerHalf upMounted_of_ne fun text _ => ?_) fun _ _ _ => trivial
    rintro v ⟨⟩
    exact hall
  split_ifs with hpct
  · rw [wp_bind]
    refine wp_ends_mono (wp_pct_mounted hread hg) ?_ fun _ _ _ => trivial
    intro n s₁ hn
    rw [refreshIfChanged] at hn
    split_ifs at hn ⊢
    · refine wp_plain_bind (plain_report _) upMounted_of_plain (fun _ => ?_) fun _ => trivial
      refine wp_ends_mono hn ?_ fun _ _ _ => trivial
      rintro g' s₂ ⟨-, hvmid, hall⟩
      exact hdocker (hvmid ▸ hall)
    · obtain ⟨-, -, hall⟩ := hn
      exact hdocker hall
  · exact hdocker (allMounted_of_loaded hread hg fun h => absurd h hpct)

theorem wp_visit_mounted {ctx : Ctx} {memo : Memo} {l : Listed} {s : Node} :
    wp nodeWorld (UpMounted x ctx fun policy => policy.pct = .auto) (visit x ctx memo l)
      (fun _ _ => True) s := by
  have hask : ∀ {c : Cmd} {k : c.Answer → Prog sig Memo} {s : Node}, (∀ v, c ≠ .up v) →
      (∀ r s', wp nodeWorld (UpMounted x ctx fun policy => policy.pct = .auto) (k r)
        (fun _ _ => True) s') →
      wp nodeWorld (UpMounted x ctx fun policy => policy.pct = .auto)
        (Prog.ask (S := sig) c >>= k) (fun _ _ => True) s := by
    intro c k s hc hk
    rw [wp_seq, wp_ask]
    exact ⟨upMounted_of_ne _ _ hc, fun r s' _ => hk r s'⟩
  unfold visit
  split_ifs
  · trivial
  · rw [wp_seq]
    rw [← ends_eta fun r s' => wp nodeWorld _ _ _ s']
    refine wp_ends_mono (wp_readDoc upMounted_of_ne) ?_ fun e s' _ => ?_
    · rintro r s' ⟨rfl, hr⟩
      cases r with
      | none => trivial
      | some read =>
        obtain ⟨-, hread⟩ := hr read rfl
        dsimp only
        split_ifs
        · trivial
        · rw [wp_seq]
          refine wp_mono (wp_attempt_mounted hread) fun r s₁ _ => ?_
          cases r with
          | error e =>
            refine hask (fun v hv => by cases hv) fun _ _ => ?_
            exact hask (fun v hv => by cases hv) fun _ _ => trivial
          | ok u => exact hask (fun v hv => by cases hv) fun _ _ => trivial
    · exact hask (fun v hv => by cases hv) fun _ _ => trivial

theorem wp_visitAll_mounted {ctx : Ctx} {memo : Memo} {ls : List Listed} {s : Node} :
    wp nodeWorld (UpMounted x ctx fun policy => policy.pct = .auto) (visitAll x ctx memo ls)
      (fun _ _ => True) s := by
  induction ls generalizing memo s with
  | nil => trivial
  | cons l ls ih =>
    rw [visitAll, wp_seq]
    exact wp_mono wp_visit_mounted fun memo s' _ => ih

theorem wp_pass_mounted {ctx : Ctx} {memo : Memo} {s : Node} :
    wp nodeWorld (UpMounted x ctx fun policy => policy.pct = .auto) (pass x ctx memo)
      (fun _ _ => True) s := by
  rw [pass, wp_seq, wp_ask]
  refine ⟨upMounted_of_ne _ _ nofun, fun r s' _ => ?_⟩
  cases r with
  | error e => trivial
  | ok ls =>
    show wp nodeWorld _ (visitAll x ctx memo ls >>= _) _ _
    rw [wp_seq]
    exact wp_mono wp_visitAll_mounted fun _ _ _ => trivial

/-- `pct apply` brings no stack up. -/
theorem pctApply_ups_nothing {ctx : Ctx} {vmid vmid' : ℕ} {s s' : Node}
    (h : Session.pctApply.Issues x ctx vmid s s' (.up vmid')) : False := by
  have hall : ∀ (_ : Node) (c : Cmd), (∀ v, c ≠ .up v) → ∀ v, c ≠ .up v := fun _ _ hc => hc
  have hbody : wp nodeWorld (fun _ c => ∀ v, c ≠ .up v) (pctApply x ctx vmid).run (fun _ _ => True) s := by
    refine wp_withLock nofun (fun _ => nofun) ?_ fun _ => trivial
    rw [← ends_eta fun _ _ => True]
    refine wp_plain_bind (plain_requireRunning _ _) (fun _ c hc v hv => ?_) (fun _ => ?_) fun _ => trivial
    · subst hv
      exact hc.elim
    · rw [wp_bind]
      refine wp_ends_mono (wp_load hall) (fun g s₁ _ => ?_) fun _ _ _ => trivial
      exact wp_ends_mono (wp_pctApplyGuest hall) (fun _ _ _ => trivial) fun _ _ _ => trivial
  exact wp_issues hbody h vmid' rfl

/-- **Volumes are mounted before compose binds them (proved)**, in every session that runs the pct
half first, from whatever state it begins in and whatever fails on the way; and `pct apply` alone
brings no stack up. -/
theorem up_after_mounts {ctx : Ctx} {vmid vmid' : ℕ} {s s' : Node} {session : Session}
    (h : session.Issues x ctx vmid s s' (.up vmid')) :
    session ≠ .pctApply ∧ AllMounted x ctx session.RunsPct s' vmid' := by
  have hpct : session ≠ .pctApply := by
    rintro rfl
    exact pctApply_ups_nothing h
  refine ⟨hpct, ?_⟩
  suffices hup : UpMounted x ctx session.RunsPct s' (.up vmid') from hup vmid' rfl
  cases session with
  | pctApply => exact absurd rfl hpct
  | dockerApply o => exact fun _ _ _ _ _ _ _ _ hP => hP.elim
  | apply o =>
    refine wp_issues (Q := fun _ _ => True) (wp_withLock (upMounted_of_ne _ _ nofun)
      (fun s => upMounted_of_ne _ _ nofun) ?_ fun _ => trivial) h
    rw [← ends_eta fun _ _ => True]
    exact wp_applyLocked
  | dockerUpgrade o => exact fun _ _ _ _ _ _ _ _ hP => hP.elim
  | upgrade o =>
    refine wp_issues (Q := fun _ _ => True) (wp_withLock (upMounted_of_ne _ _ nofun)
      (fun s => upMounted_of_ne _ _ nofun) ?_ fun _ => trivial) h
    rw [← ends_eta fun _ _ => True]
    exact wp_applyLocked
  | pass memo => exact wp_issues wp_pass_mounted h

/-! ### A guest with one disk volume -/

def dataText : Text :=
  "spec:\n  services:\n    web:\n      image: nginx\n  volumes:\n    data:\n      x-pve:\n"
    ++ "        storage: local\n        size: 1G\n"

def dataDoc : Doc where
  stack := ⟨none⟩
  policy := .default
  spec := .mapping
    [(.string "services", .mapping [(.string "web", .mapping [(.string "image", .string "nginx")])]),
      (.string "volumes", .mapping [(.string "data", .mapping [(.string "x-pve",
        .mapping [(.string "storage", .string "local"), (.string "size", .string "1G")])])])]

/-- The libraries on the one text, with its SHA-256. -/
def dataExternal : External :=
  .on [(dataText, "2a4fd122490ca3d391e2f7abe14df13efc252c076dca19e2ec26161bb16b79ba", dataDoc)] []

def dataCtx : Ctx where
  node := "pve"
  config := { Config.default with limits := { Config.default.limits with storages := ["local"] } }
  tag := none

/-- A fresh guest. -/
def bareConf : PveConfig where
  fields := [("unprivileged", .other "1")]
  distinct := List.nodup_singleton _
  small := by
    show 1 ≤ MAX_OUTPUT
    decide

/-- The guest after its pct half. -/
def dataConf : PveConfig where
  fields := [("mp0", .string ("local:vm-105-disk-1,mp=/opt/stack/volumes/data,size=1G,backup=1")),
    ("features", .string "keyctl=1,nesting=1"), ("unprivileged", .other "1")]
  distinct := by
    show (["mp0".toList, "features".toList, "unprivileged".toList] : List Text).Nodup
    decide
  small := by
    show 3 ≤ MAX_OUTPUT
    decide

def dataNode (conf : PveConfig) : Node where
  docs _ := some dataText
  token := "1"
  file := .notFound
  conf _ := conf
  compose _ := none
  facts _ := none
  recorded _ := none

def dataScript : Script := { now := 0, listed := [], upFails := false }

def upsData : Cmd → Bool
  | .up v => v = 105
  | _ => false

/-- Where a computed run brings the stack up, and over what. -/
theorem issues_up_data {α : Type} {p : Prog sig α} {s : Node} {fields : List (Text × JsonValue)}
    (h : ((p.firstIssued dataScript.answer upsData s).map fun cs =>
      (cs.2.docs 105, (cs.2.conf 105).fields)) = some (some dataText, fields)) :
    ∃ s', Programs.Issues nodeWorld s p s' (.up 105) ∧ s'.docs 105 = some dataText ∧
      (s'.conf 105).fields = fields := by
  obtain ⟨⟨c, s'⟩, hf, hs'⟩ := Option.map_eq_some_iff.mp h
  obtain ⟨hdocs, hfields⟩ := Prod.mk.inj hs'
  have hc : c = .up 105 := by
    have hkind := kind_of_firstIssued hf
    cases c with
    | up v => rw [of_decide_eq_true hkind]
    | _ => cases hkind
  subst hc
  exact ⟨s', issues_of_firstIssued dataScript.answer_effect hf, hdocs, hfields⟩

/-- The bare `apply` of the guest whose disk is there. -/
theorem up_after_mounts_data :
    ∃ s', (Session.apply ⟨false, false, false⟩).Issues dataExternal dataCtx 105 (dataNode dataConf) s'
        (.up 105) ∧ s'.docs 105 = some dataText ∧
      AllMounted dataExternal dataCtx (Session.apply ⟨false, false, false⟩).RunsPct s' 105 := by
  have hrun : (((apply dataExternal dataCtx 105 ⟨false, false, false⟩).run.firstIssued
      dataScript.answer upsData (dataNode dataConf)).map fun cs =>
        (cs.2.docs 105, (cs.2.conf 105).fields)) = some (some dataText, dataConf.fields) := by
    decide +kernel
  obtain ⟨s', hup, hdocs, -⟩ := issues_up_data hrun
  have hissues : (Session.apply ⟨false, false, false⟩).Issues dataExternal dataCtx 105
      (dataNode dataConf) s' (.up 105) := hup
  exact ⟨s', hissues, hdocs, (up_after_mounts hissues).2⟩

/-- **`docker apply` alone.**  The stack is brought up over a directory at which no disk is
mounted. -/
theorem up_without_mounts :
    ∃ s', (Session.dockerApply ⟨false, false, false⟩).Issues dataExternal dataCtx 105
        (dataNode bareConf) s' (.up 105) ∧ ¬ AllMounted dataExternal dataCtx (fun _ => True) s' 105 := by
  have hrun : (((dockerApply dataExternal dataCtx 105 ⟨false, false, false⟩).run.firstIssued
      dataScript.answer upsData (dataNode bareConf)).map fun cs =>
        (cs.2.docs 105, (cs.2.conf 105).fields)) = some (some dataText, bareConf.fields) := by
    decide +kernel
  obtain ⟨s', hup, hdocs, hfields⟩ := issues_up_data hrun
  refine ⟨s', hup, fun hall => ?_⟩
  have hvols : volumes dataDoc.spec dataCtx.limits
      = .ok [⟨"data", .disk (some "local") (Size.saturate (2 ^ 30)), none, true⟩] := by
    decide
  obtain ⟨k, m, hm, -⟩ := hall dataText dataDoc _ hdocs rfl hvols trivial _
    List.mem_cons_self Kind.noConfusion
  -- the only field is no mount
  obtain ⟨hk, v, hv, -⟩ := PveConfig.mountOf_eq_some_iff.mp hm
  have hfield := Assoc.mem_of_get? hv
  rw [hfields, bareConf, List.mem_singleton] at hfield
  rw [(Prod.mk.inj hfield).1] at hk
  exact absurd hk (by decide)

end PveCompose
