import PveCompose.Keep
import PveCompose.Lib.Grouped

/-!
# An interrupted apply is resumed

A plan is cut after any of its calls, the config is read again, and a plan is built from what is
there now.  The operations of one directory, of the features and of the tag are planned apart
(`partOps`), so a call only ever changes what is planned for its own part.

* `partOps_performs` — **the frame lemma**: a performed call leaves what is planned for every other
  part as it was;
* `Resuming.own` — **the own lemma**: what is planned for its own part is the rest of it, exactly
  when the operation `Lands`;
* `Resuming.step` — **the step lemma**: both, over the whole plan;
* `build_resumes_iff` — **PROVED**: every cut of a plan is resumed with its remaining operations,
  exactly when every volume is `Converging`;
* `build_resizes_again` — a disk that is to grow and to change its backup flag: the line that
  changes the flag carries the size from before.
-/

namespace PveCompose

open Words

/-! ### Plans over the config that is there now -/

/-- PVE keeps a line of its own for every disk it allocates. -/
def AllocatedOwn : Alloc := fun op key _ line => Allocated op key line

theorem Performs.mono {alloc alloc' : Alloc} (hle : ∀ op key value line,
    alloc op key value line → alloc' op key value line) {conf conf' : PveConfig} {op : Op}
    {call : Call} (h : Performs alloc conf conf' op call) : Performs alloc' conf conf' op call := by
  cases h with
  | setFeatures hs => exact .setFeatures hs
  | addTag hs => exact .addTag hs
  | createBind hs => exact .createBind hs
  | createDisk ha hs => exact .createDisk (hle _ _ _ _ ha) hs
  | resize hm hline hs => exact .resize hm hline hs
  | setBackup hs => exact .setBackup hs

theorem Performs.ofOwn {conf conf' : PveConfig} {op : Op} {call : Call}
    (h : Performs AllocatedOwn conf conf' op call) : Performs AllocatedAs conf conf' op call :=
  h.mono fun _ _ _ _ ha => .inr ha

/-- The same operation, up to the recorded size that a rewritten line carries. -/
def Op.Same (op op' : Op) : Prop :=
  op = op' ∨ ∃ m size backup, op = .setBackup m backup ∧
    op' = .setBackup { m with size := size } backup

theorem Op.Same.refl (op : Op) : op.Same op := .inl rfl

theorem Op.Same.symm {op op' : Op} (h : op.Same op') : op'.Same op := by
  rcases h with rfl | ⟨m, size, b, rfl, rfl⟩
  · exact .inl rfl
  · exact .inr ⟨{ m with size := size }, m.size, b, rfl, rfl⟩

theorem Op.Same.trans {o₁ o₂ o₃ : Op} (h : o₁.Same o₂) (h' : o₂.Same o₃) : o₁.Same o₃ := by
  rcases h with rfl | ⟨m, size, b, rfl, rfl⟩
  · exact h'
  · rcases h' with rfl | ⟨m', size', b', heq, rfl⟩
    · exact .inr ⟨m, size, b, rfl, rfl⟩
    · cases heq
      exact .inr ⟨m, size', b, rfl, rfl⟩

theorem Op.Same.slot {op op' : Op} (h : op.Same op') : op.slot = op'.slot := by
  rcases h with rfl | ⟨m, size, b, rfl, rfl⟩ <;> rfl

/-- The plan's inputs over another state of the guest. -/
def Inputs.over (i : Inputs) (g : GuestConfig) : Inputs := { i with guest := g }

/-- The config is read again, and the plan built from it is `rest`. -/
def Resumes (vmid : ℕ) (i : Inputs) (conf : PveConfig) (rest : List Op) : Prop :=
  ∃ g p, parseConfig vmid conf = .ok g ∧ build (i.over g) = .ok p ∧
    List.Forall₂ Op.Same p.ops rest

/-- No path has two mounts. -/
def GuestConfig.SinglePaths (g : GuestConfig) : Prop :=
  ∀ m ∈ g.mounts, ∀ m' ∈ g.mounts, m.mp.isSome → m.mp = m'.mp → m = m'

/-! ### The parts of a plan -/

/-- What operations are planned for, apart from each other. -/
inductive Part where
  | features
  | tag
  | volume (mp : Option Text)
deriving DecidableEq

def Op.part : Op → Part
  | .setFeatures _ => .features
  | .addTag _ => .tag
  | .createDisk mp _ _ _ | .createBind mp _ | .resize _ mp _ _ => .volume (some mp)
  | .setBackup m _ => .volume m.mp

theorem Op.Same.part {op op' : Op} (h : op.Same op') : op.part = op'.part := by
  rcases h with rfl | ⟨m, size, b, rfl, rfl⟩ <;> rfl

/-- The operations that are planned for a part. -/
def partOps (i : Inputs) : Part → List Op
  | .features => featureOps i.guest
  | .tag => tagOps i.guest i.tag
  | .volume mp => (i.volumes.find? fun v => some v.dir = mp).elim [] fun v =>
      volumeOps i v (i.guest.mountAt v.dir)

def parts (i : Inputs) : List Part :=
  .features :: .tag :: i.volumes.map fun v => .volume (some v.dir)

theorem parts_nodup {i : Inputs} (hnd : (i.volumes.map Volume.name).Nodup) : (parts i).Nodup := by
  have hdirs : (i.volumes.map fun v => Part.volume (some v.dir)).Nodup := by
    refine List.Nodup.map_on (fun v hv w hw hvw => ?_) hnd.of_map
    refine List.inj_on_of_nodup_map hnd hv hw (dir_inj ?_)
    exact Option.some.inj (Part.volume.inj hvw)
  simp [parts, hdirs]

theorem find_dir {i : Inputs} (hnd : (i.volumes.map Volume.name).Nodup) {v : Volume}
    (hv : v ∈ i.volumes) : (i.volumes.find? fun w => some w.dir = some v.dir) = some v := by
  cases hf : i.volumes.find? fun w => some w.dir = some v.dir with
  | none => exact absurd (decide_eq_true rfl) (List.find?_eq_none.mp hf v hv)
  | some w =>
    have hdir : some w.dir = some v.dir := by simpa using List.find?_some hf
    rw [List.inj_on_of_nodup_map hnd (List.mem_of_find?_eq_some hf) hv
      (dir_inj (Option.some.inj hdir))]

theorem partOps_volume {i : Inputs} (hnd : (i.volumes.map Volume.name).Nodup) {v : Volume}
    (hv : v ∈ i.volumes) :
    partOps i (.volume (some v.dir)) = volumeOps i v (i.guest.mountAt v.dir) := by
  rw [partOps, find_dir hnd hv]
  rfl

/-- A plan is its parts, in order. -/
theorem planOps_eq_parts {i : Inputs} (hnd : (i.volumes.map Volume.name).Nodup) :
    planOps i = (parts i).flatMap (partOps i) := by
  rw [parts, List.flatMap_cons, List.flatMap_cons, List.flatMap_map, planOps, List.append_assoc]
  refine congrArg (featureOps i.guest ++ ·) (congrArg (tagOps i.guest i.tag ++ ·) ?_)
  exact List.flatMap_congr fun v hv => (partOps_volume hnd hv).symm

/-- Every operation knows its part. -/
theorem part_of_mem {i : Inputs} (c : Part) : ∀ op ∈ partOps i c, op.part = c := by
  intro op hop
  cases c with
  | features =>
    change op ∈ featureOps i.guest at hop
    unfold featureOps at hop
    split_ifs at hop
    · rw [List.mem_singleton.mp hop]
      rfl
    · exact absurd hop List.not_mem_nil
  | tag =>
    change op ∈ tagOps i.guest i.tag at hop
    unfold tagOps at hop
    split at hop
    · split_ifs at hop
      · exact absurd hop List.not_mem_nil
      · rw [List.mem_singleton.mp hop]
        rfl
    · exact absurd hop List.not_mem_nil
  | volume mp =>
    rw [partOps] at hop
    cases hf : i.volumes.find? fun v => some v.dir = mp with
    | none =>
      rw [hf] at hop
      exact absurd hop List.not_mem_nil
    | some v =>
      rw [hf] at hop
      have hdir : some v.dir = mp := by simpa using List.find?_some hf
      rw [← hdir]
      cases volumeOp_of_mem hop with
      | createBind _ _ => rfl
      | createDisk _ _ _ => rfl
      | resize _ _ _ _ => rfl
      | setBackup _ hm _ _ => exact congrArg Part.volume (mountAt_eq_some hm).2

/-! ### One mount at a path -/

namespace PveConfig

/-- No path has two mounts, by the lines. -/
def SinglePaths (conf : PveConfig) : Prop :=
  ∀ k k' m m' p, conf.mountOf k = some m → conf.mountOf k' = some m' → m.mp = some p →
    m'.mp = some p → k = k'

end PveConfig

namespace ReadAs

variable {vmid : ℕ} {conf : PveConfig} {g : GuestConfig}

theorem singlePaths (h : ReadAs vmid conf g) (hs : g.SinglePaths) : conf.SinglePaths := by
  intro k k' m m' p hm hm' hp hp'
  obtain rfl := PveConfig.key_of_mountOf hm
  obtain rfl := PveConfig.key_of_mountOf hm'
  rw [hs m (h.mem_mounts_iff.mpr hm) m' (h.mem_mounts_iff.mpr hm') (by simp [hp])
    (hp.trans hp'.symm)]

theorem mountAt_iff (h : ReadAs vmid conf g) (hs : conf.SinglePaths) {p : Text} {m : Mount} :
    g.mountAt p = some m ↔ conf.mountOf m.key = some m ∧ m.mp = some p := by
  constructor
  · intro hm
    obtain ⟨hmem, hp⟩ := mountAt_eq_some hm
    exact ⟨h.mem_mounts_iff.mp hmem, hp⟩
  · rintro ⟨hm, hp⟩
    cases hat : g.mountAt p with
    | none => exact absurd hp (mountAt_eq_none_iff.mp hat m (h.mem_mounts_iff.mpr hm))
    | some m' =>
      obtain ⟨hmem', hp'⟩ := mountAt_eq_some hat
      have hm' := h.mem_mounts_iff.mp hmem'
      rw [hs _ _ _ _ _ hm' hm hp' hp] at hm'
      rw [Option.some.inj (hm'.symm.trans hm)]

theorem isTemplate_eq {conf' : PveConfig} {g' : GuestConfig} {key line : Text}
    (h : ReadAs vmid conf g) (h' : ReadAs vmid conf' g') (hs : PveConfig.Stored key line conf conf')
    (hk : ("template" : Text) ≠ key) : g'.isTemplate = g.isTemplate := by
  rw [h'.isTemplate, h.isTemplate, hs, if_neg hk]

end ReadAs

/-- After a line is stored, the config is read exactly when that line is. -/
theorem readable_stored_iff {conf conf' : PveConfig} {key line : Text} (h : Readable conf)
    (hs : PveConfig.Stored key line conf conf') :
    Readable conf' ↔
      (key = "rootfs" ∨ isMountKey key = true → ∃ m, Mount.parse key line = .ok m) := by
  constructor
  · intro h' hk
    exact h' key (.string line) (by rw [hs, if_pos rfl]) hk
  · intro hline k v hv hk
    rw [hs] at hv
    split_ifs at hv with hkk
    · cases hv
      subst hkk
      exact hline hk
    · exact h k v hv hk

/-! ### What a call leaves as it was -/

section Frame

variable {g₀ : GuestConfig} {next : ℕ} {conf conf' : PveConfig} {op : Op}

/-- **A call gives no path a second mount (proved).** -/
theorem singlePaths_performs (hc : Counted g₀ next conf) (hr : Ready g₀ conf op)
    (hp : Performs AllocatedAs conf conf' op (opCall g₀ next op).1) (hs : conf.SinglePaths) :
    conf'.SinglePaths := by
  obtain ⟨key, line, hst, hnew, hold⟩ := writes_of_performs hc hr hp
  -- what is written at a path is the only mount there
  have honly : ∀ k m m' p, conf'.mountOf key = some m → conf'.mountOf k = some m' →
      m.mp = some p → m'.mp = some p → key = k := by
    intro k m m' p hm hm' hmp hmp'
    by_contra hne
    rw [PveConfig.mountOf_stored_ne hst (Ne.symm hne)] at hm'
    have hdir := hnew m hm
    rcases hold with ⟨m₀, hm₀, hmp₀⟩ | ⟨-, -, mp, hslot⟩ | ⟨-, rfl⟩ | ⟨-, rfl⟩
    · exact hne (hs _ _ _ _ p hm₀ hm' (hmp₀.trans (hdir.symm.trans hmp)) hmp')
    · have hfree : ∀ k m, conf.mountOf k = some m → m.mp ≠ some mp := by
        cases op with
        | createDisk _ _ _ _ =>
          cases hslot
          exact hr.2
        | createBind _ _ =>
          cases hslot
          exact hr.2
        | setFeatures _ => cases hslot
        | addTag _ => cases hslot
        | resize _ _ _ _ => cases hslot
        | setBackup _ _ => cases hslot
      rw [hslot] at hdir
      exact hfree k m' hm' (hmp'.trans (hmp.symm.trans hdir))
    · exact absurd (PveConfig.mountOf_eq_some_iff.mp hm).1 (by decide)
    · exact absurd (PveConfig.mountOf_eq_some_iff.mp hm).1 (by decide)
  intro k k' m m' p hm hm' hmp hmp'
  by_cases hk : k = key
  · subst hk
    exact honly k' m m' p hm hm' hmp hmp'
  · by_cases hk' : k' = key
    · subst hk'
      exact (honly k m' m p hm' hm hmp' hmp).symm
    · rw [PveConfig.mountOf_stored_ne hst hk] at hm
      rw [PveConfig.mountOf_stored_ne hst hk'] at hm'
      exact hs k k' m m' p hm hm' hmp hmp'

/-- **The frame lemma.**  What is planned for another part stays. -/
theorem partOps_performs {vmid : ℕ} {i : Inputs} {g g' : GuestConfig} {c : Part}
    (hc : Counted g₀ next conf) (hr : Ready g₀ conf op)
    (hp : Performs AllocatedAs conf conf' op (opCall g₀ next op).1) (hs : conf.SinglePaths)
    (hg : ReadAs vmid conf g) (hg' : ReadAs vmid conf' g') (hne : c ≠ op.part) :
    partOps (i.over g') c = partOps (i.over g) c := by
  cases c with
  | features =>
    have hslot : op.slot ≠ .features := fun h => hne (by cases op <;> cases h; rfl)
    change featureOps g' = featureOps g
    rw [featureOps, hg'.features_eq, features_performs hc hr hslot hp, ← hg.features_eq]
    rfl
  | tag =>
    have hslot : op.slot ≠ .tag := fun h => hne (by cases op <;> cases h; rfl)
    have htags : g'.tags = g.tags := by
      rw [hg'.tags_eq, tags_performs hc hr hslot hp, ← hg.tags_eq]
    change tagOps g' i.tag = tagOps g i.tag
    unfold tagOps GuestConfig.hasTag
    rw [htags]
  | volume mp =>
    rw [partOps, partOps]
    change (i.volumes.find? fun v => some v.dir = mp).elim _ _
      = (i.volumes.find? fun v => some v.dir = mp).elim _ _
    cases hf : i.volumes.find? fun v => some v.dir = mp with
    | none => rfl
    | some v =>
      have hdir : some v.dir = mp := by simpa using List.find?_some hf
      have hslot : op.slot.dir ≠ some v.dir := by
        rw [hdir]
        intro h
        refine hne ?_
        cases op with
        | setFeatures _ => exact absurd (h.trans hdir.symm) nofun
        | addTag _ => exact absurd (h.trans hdir.symm) nofun
        | createDisk _ _ _ _ => exact congrArg Part.volume h.symm
        | createBind _ _ => exact congrArg Part.volume h.symm
        | resize _ _ _ _ => exact congrArg Part.volume h.symm
        | setBackup _ _ => exact congrArg Part.volume h.symm
      have hat : g'.mountAt v.dir = g.mountAt v.dir := by
        refine Option.ext fun m => ?_
        rw [hg'.mountAt_iff (singlePaths_performs hc hr hp hs), hg.mountAt_iff hs,
          mountOf_dir_performs hc hr hp hslot]
      change volumeOps _ v (g'.mountAt v.dir) = volumeOps _ v (g.mountAt v.dir)
      rw [hat]
      rfl

end Frame

/-! ### What a call does for its own part -/

/-- An operation of the volume leaves nothing of itself to do: a bind line that is read, a size that
satisfies itself, and a rewritten line that begins with a volume and does not bring back a size that
is too small. -/
def Volume.Takes (v : Volume) : Op → Prop
  | .setFeatures _ | .addTag _ => True
  | .createBind mp path => ∀ key, ∃ m, Mount.parse key (bindSpec mp path) = .ok m
  | .createDisk _ _ size _ => diskSizeSatisfied (some size) size = true
  | .resize _ _ _ new => diskSizeSatisfied (some new) new = true
  | .setBackup m _ => Mount.cleanVolume m.volume ≠ [] ∧
      ((Mount.cleanVolume m.volume).head? = some '/' ∨
        ∀ storage size, v.kind = .disk storage size →
          diskSizeSatisfied (m.size.map Size.reread) size = true)

/-- The first operation of a volume, the state of its directory, and what is planned after it. -/
inductive FirstOp (i : Inputs) (v : Volume) (held : Option Mount) : Op → List Op → Prop where
  | createBind {path : Text} : v.kind = .bind path → held = none →
      FirstOp i v held (.createBind v.dir path) []
  | createDisk {storage : Option Text} {size : Size} {st : Text} : v.kind = .disk storage size →
      held = none → FirstOp i v held (.createDisk v.dir st size v.backup) []
  | resize {storage : Option Text} {size : Size} {m : Mount} : v.kind = .disk storage size →
      held = some m → m.isBind = false →
      FirstOp i v held (.resize m.key v.dir (m.size.getD Size.zero) size)
        (if m.backup = v.backup then [] else [.setBackup m v.backup])
  | setBackup {storage : Option Text} {size : Size} {m : Mount} : v.kind = .disk storage size →
      held = some m → m.isBind = false → FirstOp i v held (.setBackup m v.backup) []

theorem firstOp_of_volumeOps {i : Inputs} {v : Volume} {held : Option Mount} {op : Op}
    {rest : List Op} (h : volumeOps i v held = op :: rest) : FirstOp i v held op rest := by
  unfold volumeOps at h
  split at h
  · cases h
  · rename_i path hk
    cases h
    exact .createBind hk rfl
  · cases h
  · rename_i storage size hk
    cases hst : storage.or (i.config.storageFor i.node) with
    | none =>
      rw [hst] at h
      cases h
    | some st =>
      rw [hst] at h
      cases h
      exact .createDisk hk rfl
  · rename_i storage size m hk
    unfold diskOps at h
    split_ifs at h with hb hs hf hf
    · cases h
    · cases h
      exact .setBackup hk rfl (Bool.not_eq_true _ ▸ hb)
    · cases h
      have hfirst := FirstOp.resize (i := i) hk rfl (Bool.not_eq_true _ ▸ hb)
      rw [if_pos hf] at hfirst
      exact hfirst
    · cases h
      have hfirst := FirstOp.resize (i := i) hk rfl (Bool.not_eq_true _ ▸ hb)
      rw [if_neg hf] at hfirst
      exact hfirst

section Own

variable {vmid : ℕ} {i : Inputs} {v : Volume} {next : ℕ} {conf conf' : PveConfig}
  {g g' : GuestConfig} {op first : Op} {rest : List Op}

/-- After a line is stored at a directory, the config that is read holds its mount there. -/
theorem exists_read_stored_iff {key line dir : Text} {P : Option Mount → Prop}
    (hread : parseConfig vmid conf = .ok g) (hs' : conf'.SinglePaths)
    (hs : PveConfig.Stored key line conf conf') (hk : isMountKey key = true)
    (hmp : ∀ m, Mount.parse key line = .ok m → m.mp = some dir) :
    (∃ g', parseConfig vmid conf' = .ok g' ∧ P (g'.mountAt dir)) ↔
      ∃ m, Mount.parse key line = .ok m ∧ P (some m) := by
  have hat : ∀ {g' : GuestConfig} {m : Mount}, parseConfig vmid conf' = .ok g' →
      Mount.parse key line = .ok m → g'.mountAt dir = some m := by
    intro g' m hg' hm
    rw [(parseConfig_ok hg').mountAt_iff hs', (Mount.parse_written hm).2.1]
    exact ⟨PveConfig.mountOf_stored_ok hs hk hm, hmp m hm⟩
  have hreadable := readable_stored_iff (parseConfig_isOk_iff.mp ⟨g, hread⟩) hs
  constructor
  · rintro ⟨g', hg', hP⟩
    obtain ⟨m, hm⟩ := hreadable.mp (parseConfig_isOk_iff.mp ⟨g', hg'⟩) (.inr hk)
    exact ⟨m, hm, hat hg' hm ▸ hP⟩
  · rintro ⟨m, hm, hP⟩
    obtain ⟨g', hg'⟩ := parseConfig_isOk_iff.mpr (hreadable.mpr fun _ => ⟨m, hm⟩)
    exact ⟨g', hg', (hat hg' hm).symm ▸ hP⟩

/-- What is planned for a disk's directory that holds a mount with the right flag. -/
theorem diskOps_of_backup {size : Size} {m : Mount} (hb : m.backup = v.backup) :
    diskOps v size m = [] ↔ m.isBind = true ∨ diskSizeSatisfied m.size size = true := by
  unfold diskOps
  split_ifs <;> simp_all

/-- What is planned for a disk's directory once its disk has the size asked for. -/
theorem diskOps_of_grown {size : Size} {m : Mount} (hb : m.isBind = false) :
    List.Forall₂ Op.Same (diskOps v size { m with size := some size })
        (if m.backup = v.backup then [] else [.setBackup m v.backup]) ↔
      diskSizeSatisfied (some size) size = true := by
  have hsame : Op.Same (.setBackup { m with size := some size } v.backup) (.setBackup m v.backup) :=
    .inr ⟨{ m with size := some size }, m.size, v.backup, rfl, rfl⟩
  have hb' : ({ m with size := some size } : Mount).isBind = false := hb
  unfold diskOps
  rw [if_neg (by simp [hb'])]
  dsimp only
  cases hsat : diskSizeSatisfied (some size) size with
  | true =>
    simp only [if_true, List.nil_append, iff_true]
    split_ifs
    · exact .nil
    · exact .cons hsame .nil
  | false =>
    simp only [Bool.false_eq_true, if_false, iff_false]
    intro h
    have hlen := h.length_eq
    split_ifs at hlen <;> simp at hlen

/-- **What a call leaves to do in its own directory (proved).** -/
theorem volumeOps_performs {g₀ : GuestConfig} (hread : parseConfig vmid conf = .ok g)
    (hs : conf.SinglePaths) (hs' : conf'.SinglePaths) (hcomma : ',' ∉ v.dir)
    (hfirst : volumeOps i v (g.mountAt v.dir) = first :: rest) (hsame : first.Same op)
    (hw : ∀ m b, op = .setBackup m b → m.Written)
    (hp : Performs AllocatedOwn conf conf' op (opCall g₀ next op).1) :
    (∃ g', parseConfig vmid conf' = .ok g' ∧
        List.Forall₂ Op.Same (volumeOps i v (g'.mountAt v.dir)) rest) ↔ v.Takes op := by
  have hr := parseConfig_ok hread
  cases firstOp_of_volumeOps hfirst with
  | @createBind path hk _ =>
    rcases hsame with rfl | ⟨_, _, _, h, -⟩
    case inr => cases h
    cases hp with
    | createBind hst =>
      rw [exists_read_stored_iff (P := fun held => List.Forall₂ Op.Same (volumeOps i v held) [])
        hread hs' hst (isMountKey_mpKey _) fun m => mp_of_parse_bindSpec hcomma]
      constructor
      · rintro ⟨m, hm, -⟩ key
        exact ⟨_, Mount.parse_key hm key⟩
      · intro h
        obtain ⟨m, hm⟩ := h (mpKey (takeIndex g₀.usedIndexes next))
        refine ⟨m, hm, ?_⟩
        rw [volumeOps_bind_some hk]
        exact .nil
  | @createDisk storage size st hk _ =>
    rcases hsame with rfl | ⟨_, _, _, h, -⟩
    case inr => cases h
    cases hp with
    | createDisk ha hst =>
      cases ha with
      | @own _ _ _ _ _ _ m hline hbind hmp hback hsize =>
        rw [exists_read_stored_iff (P := fun held => List.Forall₂ Op.Same (volumeOps i v held) [])
          hread hs' hst (isMountKey_mpKey _) fun m' hm' => by
            cases hline.symm.trans hm'
            exact hmp]
        have hops := volumeOps_disk_some (i := i) hk m
        have hdone : diskOps v size m = [] ↔ _ := diskOps_of_backup hback
        rw [hbind, hsize, Bool.false_eq_true, false_or] at hdone
        rw [Volume.Takes, ← hdone]
        constructor
        · rintro ⟨m', hm', h⟩
          cases hline.symm.trans hm'
          rw [hops] at h
          exact List.forall₂_nil_right_iff.mp h
        · intro h
          refine ⟨m, hline, ?_⟩
          rw [hops, h]
          exact .nil
  | @resize storage size m hk hm hbind =>
    obtain ⟨hat, hmp⟩ := (hr.mountAt_iff hs).mp hm
    rcases hsame with rfl | ⟨_, _, _, h, -⟩
    case inr => cases h
    cases hp with
    | @resize _ _ _ _ _ line m' hm' hline hst =>
      cases hat.symm.trans hm'
      have hkey : isMountKey m.key = true := (PveConfig.mountOf_eq_some_iff.mp hat).1
      rw [exists_read_stored_iff (P := fun held => List.Forall₂ Op.Same (volumeOps i v held)
          (if m.backup = v.backup then [] else [.setBackup m v.backup]))
        hread hs' hst hkey fun m' hm' => by
          cases hline.symm.trans hm'
          exact hmp]
      have hops := volumeOps_disk_some (i := i) hk { m with size := some size }
      rw [Volume.Takes, ← diskOps_of_grown (v := v) hbind, ← hops]
      constructor
      · rintro ⟨m', hm', h⟩
        cases hline.symm.trans hm'
        exact h
      · exact fun h => ⟨_, hline, h⟩
  | @setBackup storage size m hk hm hbind =>
    obtain ⟨hat, hmp⟩ := (hr.mountAt_iff hs).mp hm
    have hkey : isMountKey m.key = true := (PveConfig.mountOf_eq_some_iff.mp hat).1
    -- the line carries the size from when the operation was planned
    obtain ⟨held, rfl⟩ : ∃ held, op = .setBackup { m with size := held } v.backup := by
      rcases hsame with rfl | ⟨m', held, b, h, rfl⟩
      · exact ⟨m.size, rfl⟩
      · cases h
        exact ⟨held, rfl⟩
    have hline : Mount.parse m.key ({ m with size := held, backup := v.backup } : Mount).display
        = if Mount.cleanVolume m.volume = [] then bail (m.key ++ ": no volume")
          else .ok { m with volume := Mount.cleanVolume m.volume, backup := v.backup
                            size := held.map Size.reread } :=
      Mount.parse_display ((hw _ _ rfl).withBackup v.backup) m.key
    cases hp with
    | setBackup hst =>
      rw [exists_read_stored_iff (P := fun held => List.Forall₂ Op.Same (volumeOps i v held) [])
        hread hs' hst hkey fun m' hm' => by
          rw [hline] at hm'
          split_ifs at hm'
          · exact absurd hm' bail_ne_ok
          · cases hm'
            exact hmp]
      have hdone : diskOps v size { m with volume := Mount.cleanVolume m.volume, backup := v.backup
                                           size := held.map Size.reread } = [] ↔ _ :=
        diskOps_of_backup rfl
      have hkind : (∀ storage size, v.kind = .disk storage size →
          diskSizeSatisfied (held.map Size.reread) size = true)
            ↔ diskSizeSatisfied (held.map Size.reread) size = true := by
        constructor
        · exact fun h => h _ _ hk
        · rintro h storage' size' hk'
          cases hk.symm.trans hk'
          exact h
      rw [Volume.Takes, hkind]
      constructor
      · rintro ⟨m', hm', h⟩
        rw [hline] at hm'
        split_ifs at hm' with hv
        · exact absurd hm' bail_ne_ok
        · cases hm'
          rw [volumeOps_disk_some hk, List.forall₂_nil_right_iff, hdone] at h
          exact ⟨hv, h.imp of_decide_eq_true id⟩
      · rintro ⟨hv, h⟩
        rw [if_neg hv] at hline
        refine ⟨_, hline, ?_⟩
        rw [volumeOps_disk_some hk, hdone.mpr (h.imp decide_eq_true id)]
        exact .nil

end Own

/-! ### Between two calls -/

/-- What is asked of a plan's inputs: the volumes of an accepted document, each disk with a
storage, and a tag that is one tag to PVE. -/
structure Inputs.Accepted (i : Inputs) : Prop where
  names : ∀ v ∈ i.volumes, validVolumeName v.name = true
  distinct : (i.volumes.map Volume.name).Nodup
  storage : ∀ v ∈ i.volumes, HasStorage i v
  tag : ∀ t ∈ i.tag, SingleTag t

/-- The operation leaves nothing of itself to do at its directory. -/
def Lands (i : Inputs) (op : Op) : Prop :=
  ∀ v ∈ i.volumes, op.slot.dir = some v.dir → v.Takes op

/-- What holds between two calls of the plan for `i`: `g` is what is read now, `rest` is still to
do, and it is what is planned now. -/
structure Resuming (vmid : ℕ) (i : Inputs) (next : ℕ) (conf : PveConfig) (g : GuestConfig)
    (rest : List Op) : Prop where
  read : parseConfig vmid conf = .ok g
  single : conf.SinglePaths
  template : g.isTemplate = false
  counted : Counted i.guest next conf
  plan : List.Forall₂ Op.Same (planOps (i.over g)) rest
  written : ∀ m b, Op.setBackup m b ∈ rest → m.Written
  features : ∀ s, Op.setFeatures s ∈ rest → g.features = i.guest.features
  tags : ∀ t, Op.addTag t ∈ rest → g.tags = i.guest.tags

namespace Resuming

variable {vmid : ℕ} {i : Inputs} {next : ℕ} {conf conf' : PveConfig} {g : GuestConfig} {op : Op}
  {rest : List Op}

/-- The first operation still to do is the first that is planned now. -/
theorem exists_first (h : Resuming vmid i next conf g (op :: rest)) :
    ∃ first l, planOps (i.over g) = first :: l ∧ first.Same op ∧ List.Forall₂ Op.Same l rest := by
  obtain ⟨first, l, hsame, hl, heq⟩ := List.forall₂_cons_right_iff.mp h.plan
  exact ⟨first, l, heq, hsame, hl⟩

theorem ready (h : Resuming vmid i next conf g (op :: rest)) (ha : i.Accepted) :
    Ready i.guest conf op := by
  obtain ⟨first, l, hplan, hsame, -⟩ := h.exists_first
  have hr := ready_of_mem (i := i.over g) h.read ha.names (hplan ▸ List.mem_cons_self)
  rcases hsame with rfl | ⟨m, size, b, rfl, rfl⟩
  · cases first with
    | setFeatures s =>
      have heq := h.features s (by simp)
      exact ⟨heq ▸ hr.1, heq ▸ hr.2⟩
    | addTag t => exact Eq.trans hr (h.tags t (by simp))
    | createDisk mp st size b => exact hr
    | createBind mp path => exact hr
    | resize key mp old new => exact hr
    | setBackup m b => exact hr
  · obtain ⟨⟨-, hmp⟩, held, hm⟩ := hr
    exact ⟨⟨h.written _ b (by simp), hmp⟩, held, hm⟩

theorem slots (h : Resuming vmid i next conf g rest) :
    (planOps (i.over g)).map Op.slot = rest.map Op.slot := by
  have hmap : ∀ {l l' : List Op}, List.Forall₂ Op.Same l l' → l.map Op.slot = l'.map Op.slot := by
    intro l l' hl
    induction hl with
    | nil => rfl
    | cons hsame _ ih => rw [List.map_cons, List.map_cons, hsame.slot, ih]
  exact hmap h.plan

theorem resumes (h : Resuming vmid i next conf g rest) (ha : i.Accepted) :
    Resumes vmid i conf rest := by
  obtain ⟨p, hbuild⟩ : ∃ p, build (i.over g) = .ok p :=
    build_isOk_iff.mpr ⟨h.template, ha.storage⟩
  refine ⟨g, p, h.read, hbuild, ?_⟩
  rw [(build_ok hbuild).2]
  exact h.plan

/-- **The own lemma.**  What is planned for the part of a performed call is the rest of that part,
exactly when the operation lands. -/
theorem own {first : Op} {l l₀ : List Op} (h : Resuming vmid i next conf g (op :: rest))
    (ha : i.Accepted) (hp : Performs AllocatedOwn conf conf' op (opCall i.guest next op).1)
    (hplan : planOps (i.over g) = first :: l) (hsame : first.Same op)
    (hown : partOps (i.over g) first.part = first :: l₀) :
    (∃ g', parseConfig vmid conf' = .ok g' ∧
      List.Forall₂ Op.Same (partOps (i.over g') first.part) l₀) ↔ Lands i op := by
  have hr := parseConfig_ok h.read
  have hready := h.ready ha
  have hreadable := parseConfig_isOk_iff.mp ⟨g, h.read⟩
  rcases op_cases (hplan ▸ List.mem_cons_self : first ∈ planOps (i.over g)) with
    rfl | ⟨t, ht, rfl⟩ | ⟨v, hv, hvo⟩
  · rcases hsame with rfl | ⟨_, _, _, hno, -⟩
    case inr => cases hno
    have hlands : Lands i (.setFeatures (featuresText (wantedFeatures (i.over g).guest.features))) :=
      fun v _ hdir => absurd hdir nofun
    refine iff_of_true ?_ hlands
    cases hp with
    | setFeatures hst =>
      obtain ⟨g', hg'⟩ : ∃ g', parseConfig vmid conf' = .ok g' := parseConfig_isOk_iff.mpr
        ((readable_stored_iff hreadable hst).mpr fun hk => absurd hk (by decide))
      have hfeat : g'.features = wantedFeatures g.features := by
        rw [(parseConfig_ok hg').features_eq, PveConfig.features_stored hst]
        exact parseFeatures_featuresText (featuresWritten_wanted hr.featuresWritten)
      refine ⟨g', hg', ?_⟩
      change List.Forall₂ Op.Same (featureOps g') l₀
      change featureOps g = _ at hown
      have hnil : l₀ = [] := by
        unfold featureOps at hown
        split_ifs at hown
        exact (List.cons.inj hown).2.symm
      rw [hnil, featureOps, hfeat, wantedFeatures_wanted, if_neg (not_not.mpr rfl)]
      exact .nil
  · rcases hsame with rfl | ⟨_, _, _, hno, -⟩
    case inr => cases hno
    refine iff_of_true ?_ fun v _ hdir => absurd hdir nofun
    cases hp with
    | addTag hst =>
      obtain ⟨g', hg'⟩ : ∃ g', parseConfig vmid conf' = .ok g' := parseConfig_isOk_iff.mpr
        ((readable_stored_iff hreadable hst).mpr fun hk => absurd hk (by decide))
      have htags : g'.tags = i.guest.tags ++ [t] := by
        have hsingle : ∀ x ∈ i.guest.tags, SingleTag x := by
          rw [← h.tags t (by simp)]
          exact hr.singleTags
        rw [(parseConfig_ok hg').tags_eq, PveConfig.tags_stored hst, parseTags_intercalate hsingle,
          parseTags_of_single (ha.tag t ht)]
      have ht : i.tag = some t := ht
      refine ⟨g', hg', ?_⟩
      change List.Forall₂ Op.Same (tagOps g' i.tag) l₀
      change tagOps g i.tag = _ at hown
      rw [ht] at hown ⊢
      unfold tagOps at hown ⊢
      have hnil : l₀ = [] := by
        dsimp only at hown
        split_ifs at hown
        exact (List.cons.inj hown).2.symm
      have hhas : g'.hasTag t = true := by simp [GuestConfig.hasTag, htags]
      rw [hnil]
      simp only [hhas, if_true]
      exact .nil
  · have hpart : first.part = .volume (some v.dir) := by
      cases hvo with
      | createBind _ _ => rfl
      | createDisk _ _ _ => rfl
      | resize _ _ _ _ => rfl
      | setBackup _ hm _ _ => exact congrArg Part.volume (mountAt_eq_some hm).2
    have hdir : op.slot.dir = some v.dir := hsame.slot ▸ slot_dir_of_volumeOp hvo
    have hv : v ∈ i.volumes := hv
    rw [hpart, partOps_volume (i := i.over g) ha.distinct hv] at hown
    have hlands : Lands i op ↔ v.Takes op := by
      refine ⟨fun hl => hl v hv hdir, fun ht w hw hdir' => ?_⟩
      have hwv : w.dir = v.dir := Option.some.inj (hdir'.symm.trans hdir)
      rw [List.inj_on_of_nodup_map ha.distinct hw hv (dir_inj hwv)]
      exact ht
    rw [hlands, ← volumeOps_performs (i := i.over g) h.read h.single
      (singlePaths_performs h.counted hready hp.ofOwn h.single)
      (comma_not_mem_dir (ha.names v hv)) hown hsame (fun m b hop => h.written m b (by simp [hop])) hp]
    refine exists_congr fun g' => and_congr_right fun _ => ?_
    rw [hpart, partOps_volume (i := i.over g') ha.distinct hv]
    rfl

/-- What is read after a performed call, whatever is planned over it. -/
theorem after {g' : GuestConfig} (h : Resuming vmid i next conf g (op :: rest)) (ha : i.Accepted)
    (hp : Performs AllocatedOwn conf conf' op (opCall i.guest next op).1)
    (hg' : parseConfig vmid conf' = .ok g') :
    conf'.SinglePaths ∧ g'.isTemplate = false ∧ Counted i.guest (opCall i.guest next op).2 conf' := by
  have hready := h.ready ha
  obtain ⟨key, line, hs, -, hold⟩ := writes_of_performs h.counted hready hp.ofOwn
  have hkey : ("template" : Text) ≠ key := by
    rintro rfl
    rcases hold with ⟨m, hm, -⟩ | ⟨hk, -⟩ | ⟨-, hk⟩ | ⟨-, hk⟩
    · exact absurd (PveConfig.mountOf_eq_some_iff.mp hm).1 (by decide)
    · exact absurd hk (by decide)
    · exact absurd hk (by decide)
    · exact absurd hk (by decide)
  refine ⟨singlePaths_performs h.counted hready hp.ofOwn h.single, ?_, ?_⟩
  · rw [(parseConfig_ok h.read).isTemplate_eq (parseConfig_ok hg') hs hkey, h.template]
  · refine h.counted.performs hp.ofOwn ?_
    rintro m b rfl
    obtain ⟨-, size, hm⟩ := hready
    obtain ⟨-, v, hv, -⟩ := PveConfig.mountOf_eq_some_iff.mp hm
    rw [hv]
    rfl

/-- **The step lemma.**  After a performed call the rest of the plan is what is planned, exactly
when the operation lands. -/
theorem step (h : Resuming vmid i next conf g (op :: rest)) (ha : i.Accepted)
    (hp : Performs AllocatedOwn conf conf' op (opCall i.guest next op).1) :
    (Resumes vmid i conf' rest ↔ Lands i op) ∧
      (Lands i op → ∃ g', Resuming vmid i (opCall i.guest next op).2 conf' g' rest) := by
  have hr := parseConfig_ok h.read
  have hready := h.ready ha
  obtain ⟨first, l, hplan, hsame, hl⟩ := h.exists_first
  have hplan' := hplan
  rw [planOps_eq_parts (i := i.over g) ha.distinct] at hplan'
  obtain ⟨l₀, hown⟩ := Grouped.head_own part_of_mem hplan'
  -- what is planned over a config that is read: only the own part differs
  have hrest : ∀ {g' : GuestConfig}, parseConfig vmid conf' = .ok g' →
      (List.Forall₂ Op.Same (planOps (i.over g')) rest ↔
        List.Forall₂ Op.Same (partOps (i.over g') first.part) l₀) := by
    intro g' hg'
    have hpop : List.Forall₂ Op.Same ((parts i).flatMap (partOps (i.over g'))) l ↔ _ :=
      Grouped.pop_iff Op.Same.refl (parts_nodup (i := i.over g) ha.distinct) part_of_mem hplan' hown
        fun c hc => partOps_performs h.counted hready hp.ofOwn h.single hr (parseConfig_ok hg')
          (hsame.part ▸ hc)
    rw [← hpop, planOps_eq_parts (i := i.over g') ha.distinct]
    have hsymm : List.Forall₂ Op.Same rest l := hl.flip.imp fun _ _ => Op.Same.symm
    exact ⟨fun h' => Grouped.forall₂_trans (R := Op.Same) (fun _ _ _ => Op.Same.trans) h' hsymm,
      fun h' => Grouped.forall₂_trans (R := Op.Same) (fun _ _ _ => Op.Same.trans) h' hl⟩
  rw [← h.own ha hp hplan hsame hown]
  constructor
  · constructor
    · rintro ⟨g', p, hg', hbuild, hops⟩
      rw [(build_ok hbuild).2] at hops
      exact ⟨g', hg', (hrest hg').mp hops⟩
    · rintro ⟨g', hg', hops⟩
      obtain ⟨-, htemplate, -⟩ := h.after ha hp hg'
      obtain ⟨p, hbuild⟩ : ∃ p, build (i.over g') = .ok p :=
        build_isOk_iff.mpr ⟨htemplate, ha.storage⟩
      refine ⟨g', p, hg', hbuild, ?_⟩
      rw [(build_ok hbuild).2]
      exact (hrest hg').mpr hops
  · rintro ⟨g', hg', hops⟩
    obtain ⟨hsingle, htemplate, hcounted⟩ := h.after ha hp hg'
    have hnd := planOps_slots_nodup (i := i.over g) ha.distinct
    rw [h.slots, List.map_cons, List.nodup_cons] at hnd
    refine ⟨g', hg', hsingle, htemplate, hcounted, (hrest hg').mpr hops,
      fun m b hop => h.written m b (by simp [hop]), fun s hs => ?_, fun t ht => ?_⟩
    · have hslot : op.slot ≠ .features := fun h => hnd.1 (h ▸ List.mem_map_of_mem (f := Op.slot) hs)
      rw [(parseConfig_ok hg').features_eq, features_performs h.counted hready hslot hp.ofOwn,
        ← hr.features_eq, h.features s (by simp [hs])]
    · have hslot : op.slot ≠ .tag := fun h => hnd.1 (h ▸ List.mem_map_of_mem (f := Op.slot) ht)
      rw [(parseConfig_ok hg').tags_eq, tags_performs h.counted hready hslot hp.ofOwn,
        ← hr.tags_eq, h.tags t (by simp [ht])]

/-- **The run lemma.**  Every cut of operations that all land is resumed. -/
theorem run {n : ℕ} {ops : List Op} (h : Resuming vmid i next conf g ops) (ha : i.Accepted)
    (hl : ∀ op ∈ ops, Lands i op)
    (hp : PerformsAll AllocatedOwn conf ((callsFrom i.guest next ops).take n) conf') :
    Resumes vmid i conf' (ops.drop n) := by
  induction ops generalizing next n conf g with
  | nil =>
    simp only [callsFrom, List.take_nil] at hp
    cases hp
    rw [List.drop_nil]
    exact h.resumes ha
  | cons op ops ih =>
    cases n with
    | zero =>
      cases hp
      exact h.resumes ha
    | succ n =>
      cases hp with
      | cons hop hrest =>
        obtain ⟨g', h'⟩ := (h.step ha hop).2 (hl op (by simp))
        exact ih h' (fun op' hop' => hl op' (by simp [hop'])) hrest

/-- **The run lemma, the other way.**  If every cut of a plan that is performed whole is resumed, its
operations all land. -/
theorem lands_of_resumes {ops : List Op} (h : Resuming vmid i next conf g ops) (ha : i.Accepted)
    {last : PveConfig} (hp : PerformsAll AllocatedOwn conf (callsFrom i.guest next ops) last)
    (hcut : ∀ n conf', PerformsAll AllocatedOwn conf ((callsFrom i.guest next ops).take n) conf' →
      Resumes vmid i conf' (ops.drop n)) : ∀ op ∈ ops, Lands i op := by
  induction ops generalizing next conf g with
  | nil => exact fun op hop => absurd hop List.not_mem_nil
  | cons op ops ih =>
    cases hp with
    | cons hop hrest =>
      have hland := (h.step ha hop).1.mp (hcut 1 _ (.cons hop .nil))
      obtain ⟨g', h'⟩ := (h.step ha hop).2 hland
      rw [List.forall_mem_cons]
      exact ⟨hland, ih h' hrest fun n conf' hp' => hcut (n + 1) conf' (.cons hop hp')⟩

end Resuming

/-! ### A whole plan -/

/-- When applying the volume leaves nothing to do for it: a bind that is to be created has a line
that is read, a disk that is to be created or grown is given a size that satisfies itself, and a
line that is rewritten for its flag begins with a volume and carries a size that satisfies the
document. -/
def Converging (i : Inputs) (v : Volume) : Prop :=
  match v.kind, i.guest.mountAt v.dir with
  | .plain, _ | .bind _, some _ => True
  | .bind path, none => ∀ key, ∃ m, Mount.parse key (bindSpec v.dir path) = .ok m
  | .disk _ size, none => diskSizeSatisfied (some size) size = true
  | .disk _ size, some m => m.isBind = false →
      (diskSizeSatisfied m.size size = false → diskSizeSatisfied (some size) size = true) ∧
      (m.backup ≠ v.backup → Mount.cleanVolume m.volume ≠ [] ∧
        ((Mount.cleanVolume m.volume).head? = some '/' ∨
          diskSizeSatisfied (m.size.map Size.reread) size = true))

theorem converging_iff {i : Inputs} {v : Volume} (hst : HasStorage i v) :
    Converging i v ↔ ∀ op ∈ volumeOps i v (i.guest.mountAt v.dir), v.Takes op := by
  unfold Converging volumeOps
  cases hk : v.kind with
  | plain => simp
  | bind path => cases i.guest.mountAt v.dir <;> simp [Volume.Takes]
  | disk storage size =>
    have hkind : ∀ held, (∀ storage size, v.kind = .disk storage size →
        diskSizeSatisfied held size = true) ↔ diskSizeSatisfied held size = true := by
      intro held
      constructor
      · exact fun h => h _ _ hk
      · rintro h storage' size' hk'
        cases hk.symm.trans hk'
        exact h
    cases i.guest.mountAt v.dir with
    | none =>
      obtain ⟨st, hst⟩ := hst storage size hk
      simp [hst, Volume.Takes]
    | some m =>
      dsimp only
      unfold diskOps
      cases m.isBind with
      | true => simp
      | false =>
        cases diskSizeSatisfied m.size size <;>
          by_cases hb : m.backup = v.backup <;> simp [hb, Volume.Takes, hkind]

theorem forall_converging_iff {i : Inputs} (ha : i.Accepted) :
    (∀ v ∈ i.volumes, Converging i v) ↔ ∀ op ∈ planOps i, Lands i op := by
  constructor
  · intro h op hop w hw hdir
    rw [planOps, List.mem_append, List.mem_append] at hop
    rcases hop with (hop | hop) | hop
    · have hpart := part_of_mem (i := i) .features op hop
      cases op <;> cases hpart
      cases hdir
    · have hpart := part_of_mem (i := i) .tag op hop
      cases op <;> cases hpart
      cases hdir
    · obtain ⟨v, hv, hop⟩ := List.mem_flatMap.mp hop
      have hvdir := slot_dir_of_volumeOp (volumeOp_of_mem hop)
      obtain rfl : v = w := List.inj_on_of_nodup_map ha.distinct hv hw
        (dir_inj (Option.some.inj (hvdir.symm.trans hdir)))
      exact (converging_iff (ha.storage v hv)).mp (h v hv) op hop
  · intro h v hv
    rw [converging_iff (ha.storage v hv)]
    intro op hop
    refine h op ?_ v hv (slot_dir_of_volumeOp (volumeOp_of_mem hop))
    exact List.mem_append_right _ (List.mem_flatMap.mpr ⟨v, hv, hop⟩)

/-- Every cut of the plan is resumed: after its first `n` calls, what is planned over the config that
is read again is the rest of it. -/
def EveryCutResumes (vmid : ℕ) (i : Inputs) (p : Plan) (conf : PveConfig) : Prop :=
  ∀ n conf', PerformsAll AllocatedOwn conf ((execute i.guest p).take n) conf' →
    Resumes vmid i conf' (p.ops.drop n)

/-- **An interrupted apply is resumed exactly when every volume is converging (proved)**: that is
enough for every cut, and where the plan can be performed whole, it is needed. -/
theorem build_resumes_iff {vmid : ℕ} {conf : PveConfig} {i : Inputs} {p : Plan} {spec : Value}
    {limits : Limits} (hread : parseConfig vmid conf = .ok i.guest) (hsingle : i.guest.SinglePaths)
    (hvolumes : volumes spec limits = .ok i.volumes) (hnames : (i.volumes.map Volume.name).Nodup)
    (htag : ∀ t ∈ i.tag, SingleTag t) (hplan : build i = .ok p) :
    ((∀ v ∈ i.volumes, Converging i v) → EveryCutResumes vmid i p conf) ∧
      ((∃ last, PerformsAll AllocatedOwn conf (execute i.guest p) last) →
        EveryCutResumes vmid i p conf → ∀ v ∈ i.volumes, Converging i v) := by
  obtain ⟨htemplate, hops⟩ := build_ok hplan
  have hr := parseConfig_ok hread
  have ha : i.Accepted :=
    { names := fun v hv => (volumes_allowed hvolumes v hv).name
      distinct := hnames
      storage := (build_isOk_iff.mp ⟨p, hplan⟩).2
      tag := htag }
  have hstart : Resuming vmid i i.guest.freeMpIndex conf i.guest p.ops := by
    refine ⟨hread, hr.singlePaths hsingle, htemplate, counted_start hread, ?_, ?_, fun _ _ => rfl,
      fun _ _ => rfl⟩
    · rw [hops]
      exact List.forall₂_same.mpr fun op _ => Op.Same.refl op
    · intro m b hop
      have hready : Ready i.guest conf (.setBackup m b) :=
        ready_of_mem hread ha.names (hops ▸ hop)
      exact hready.1.1
  rw [forall_converging_iff ha, ← hops]
  constructor
  · exact fun hl n conf' hp => hstart.run ha hl hp
  · rintro ⟨last, hlast⟩ hcut
    exact hstart.lands_of_resumes ha hlast hcut

def gibibytes (n : ℕ) : Size := Size.saturate (n * 2 ^ 30)

def mailMount (held : ℕ) (backup : Bool) : Mount :=
  { key := "mp0", volume := "local:vm-105-disk-1", mp := some "/opt/stack/volumes/mail"
    size := some (gibibytes held), backup, other := ∅ }

/-- A guest whose one disk, at the directory of `mail`, is `held` GiB. -/
def mailConf (held : ℕ) (backup : Bool) : PveConfig where
  fields := [("mp0", .string (mailMount held backup).display),
    ("features", .string "keyctl=1,nesting=1"), ("unprivileged", .other "1")]
  distinct := by
    show (["mp0".toList, "features".toList, "unprivileged".toList] : List Text).Nodup
    decide
  small := by
    show 3 ≤ MAX_OUTPUT
    decide

/-- A document that asks for `want` GiB with backup, over that guest. -/
def mailInputs (held : ℕ) (backup : Bool) (want : ℕ) : Inputs where
  node := "pve"
  config := Config.default
  tag := none
  guest := { emptyConfig 105 with
    unprivileged := true
    features := ((∅ : TextMap).insert "keyctl" "1").insert "nesting" "1"
    mounts := [mailMount held backup] }
  volumes := [⟨"mail", .disk (some "local") (gibibytes want), none, true⟩]

def mailSpec (size : Text) : Value :=
  .mapping [(.string "volumes", .mapping [(.string "mail", .mapping [(.string "x-pve",
    .mapping [(.string "storage", .string "local"), (.string "size", .string size)])])])]

def mailLimits : Limits := { bindRoots := [], storages := ["local"], maxDiskGib := 1024 }

theorem singlePaths_mail (held : ℕ) (backup : Bool) (want : ℕ) :
    (mailInputs held backup want).guest.SinglePaths := by
  intro m hm m' hm' _ _
  exact (List.mem_singleton.mp hm).trans (List.mem_singleton.mp hm').symm

/-- A flag that changes on a disk of the right size: nothing is left to do. -/
theorem build_resumes_mail : Resumes 105 (mailInputs 8 false 8) (mailConf 8 true) [] := by
  have hread : parseConfig 105 (mailConf 8 false) = .ok (mailInputs 8 false 8).guest := by
    decide
  have hplan : build (mailInputs 8 false 8) = .ok ⟨[.setBackup (mailMount 8 false) true], []⟩ := by
    decide
  have hvolumes : volumes (mailSpec "8G") mailLimits = .ok (mailInputs 8 false 8).volumes := by
    decide
  refine (build_resumes_iff hread (singlePaths_mail 8 false 8) hvolumes (by decide)
    (by rintro t ⟨⟩) hplan).1 ?_ 1 _ (.cons (.setBackup (PveConfig.stored_of_set rfl)) .nil)
  intro v hv
  obtain rfl := List.mem_singleton.mp hv
  have hat : (mailInputs 8 false 8).guest.mountAt
      (⟨"mail", .disk (some "local") (gibibytes 8), none, true⟩ : Volume).dir
        = some (mailMount 8 false) := by decide
  unfold Converging
  rw [hat]
  exact fun _ => ⟨by decide, fun _ => ⟨by decide, .inr (by decide)⟩⟩

/-- **The size from before.**  A disk of 8 GiB without backup, a document that says 16 GiB with it:
after the whole plan the line says 8 GiB again, and the resize is planned once more. -/
theorem build_resizes_again :
    parseConfig 105 (mailConf 8 false) = .ok (mailInputs 8 false 16).guest ∧
    (mailInputs 8 false 16).guest.SinglePaths ∧
    volumes (mailSpec "16G") mailLimits = .ok (mailInputs 8 false 16).volumes ∧
    build (mailInputs 8 false 16) = .ok ⟨[.resize "mp0" "/opt/stack/volumes/mail" (gibibytes 8)
      (gibibytes 16), .setBackup (mailMount 8 false) true], []⟩ ∧
    ¬ EveryCutResumes 105 (mailInputs 8 false 16) ⟨[.resize "mp0" "/opt/stack/volumes/mail"
      (gibibytes 8) (gibibytes 16), .setBackup (mailMount 8 false) true], []⟩ (mailConf 8 false) := by
  refine ⟨by decide, singlePaths_mail 8 false 16, by decide, by decide, ?_⟩
  intro hcut
  have hm : (mailConf 8 false).mountOf "mp0" = some (mailMount 8 false) := by decide
  have hline : Mount.parse "mp0" (mailMount 16 false).display = .ok (mailMount 16 false) := by
    decide
  have hdone : PerformsAll AllocatedOwn (mailConf 8 false)
      ((execute (mailInputs 8 false 16).guest ⟨[.resize "mp0" "/opt/stack/volumes/mail"
        (gibibytes 8) (gibibytes 16), .setBackup (mailMount 8 false) true], []⟩).take 2)
      (mailConf 8 true) :=
    .cons (.resize hm hline (PveConfig.stored_of_set (rfl : (mailConf 16 false).fields = _)))
      (.cons (.setBackup (PveConfig.stored_of_set rfl)) .nil)
  obtain ⟨g, p, hg, hp, hops⟩ := hcut 2 _ hdone
  have hread : parseConfig 105 (mailConf 8 true) = .ok (mailInputs 8 true 16).guest := by
    decide
  cases hread.symm.trans hg
  have hagain : build (mailInputs 8 true 16) = .ok ⟨[.resize "mp0" "/opt/stack/volumes/mail"
      (gibibytes 8) (gibibytes 16)], []⟩ := by decide
  cases hagain.symm.trans hp
  cases hops

end PveCompose
