import PveCompose.Pve

/-!
# Nothing is removed, moved or shrunk

One plan is built from one snapshot of the config and its calls run one after another, each over
the config the calls before it left.  `Ready` is what the snapshot still says truly when a call's
turn comes, and `Kept` is what every call preserves.

* `Ready.of_performs` — **the step lemma**: a performed call leaves every other operation of the
  plan ready;
* `kept_of_performs` — **the step lemma**: a performed call keeps every mount, feature and tag;
* `apply_run` — **the run lemma**: both along any number of calls of a plan;
* `history_keeps` — **PROVED**: over any history of applies, each cut after any call, as long as no
  managed disk is recorded within a MiB of `2^64` bytes and every rewritten line begins with a
  volume that reads back as itself (`Apply.Sound`);
* `history_shrinks` — the recorded size that wraps: an apply asks for a resize from 2^64 bytes, less
  one MiB, down to one GiB.
-/

namespace PveCompose

open Words

/-! ### What is kept -/

/-- Every mount is there with its volume, path and other options, every feature keeps its value
and every tag stays. -/
structure Kept (conf conf' : PveConfig) : Prop where
  mounts : ∀ k m, conf.mountOf k = some m → ∃ m', conf'.mountOf k = some m' ∧
    m'.volume = m.volume ∧ m'.mp = m.mp ∧ m'.other = m.other
  features : ∀ k v : Text, conf.features[k]? = some v → conf'.features[k]? = some v
  tags : ∀ t ∈ conf.tags, t ∈ conf'.tags

namespace Kept

theorem refl (conf : PveConfig) : Kept conf conf :=
  ⟨fun _ m h => ⟨m, h, rfl, rfl, rfl⟩, fun _ _ h => h, fun _ h => h⟩

theorem trans {c₁ c₂ c₃ : PveConfig} (h : Kept c₁ c₂) (h' : Kept c₂ c₃) : Kept c₁ c₃ where
  mounts k m hm := by
    obtain ⟨m₂, hm₂, hv, hp, ho⟩ := h.mounts k m hm
    obtain ⟨m₃, hm₃, hv', hp', ho'⟩ := h'.mounts k m₂ hm₂
    exact ⟨m₃, hm₃, hv'.trans hv, hp'.trans hp, ho'.trans ho⟩
  features k v hv := h'.features k v (h.features k v hv)
  tags t ht := h'.tags t (h.tags t ht)

end Kept

/-! ### The operations of one plan do not meet -/

/-- What an operation is about; no two operations of a plan share it. -/
inductive Slot where
  | features
  | tag
  | create (mp : Text)
  | grow (mp : Text)
  | flag (mp : Option Text)
deriving DecidableEq

def Op.slot : Op → Slot
  | .setFeatures _ => .features
  | .addTag _ => .tag
  | .createDisk mp _ _ _ | .createBind mp _ => .create mp
  | .resize _ mp _ _ => .grow mp
  | .setBackup m _ => .flag m.mp

/-- The directory a slot is about. -/
def Slot.dir : Slot → Option Text
  | .features | .tag => none
  | .create mp | .grow mp => some mp
  | .flag mp => mp

theorem slot_dir_of_volumeOp {i : Inputs} {v : Volume} {op : Op}
    (h : VolumeOp i v (i.guest.mountAt v.dir) op) : op.slot.dir = some v.dir := by
  cases h with
  | createBind _ _ => rfl
  | createDisk _ _ _ => rfl
  | resize _ _ _ _ => rfl
  | setBackup _ hm _ _ => exact (mountAt_eq_some hm).2

theorem volumeOps_slots_nodup (i : Inputs) (v : Volume) :
    ((volumeOps i v (i.guest.mountAt v.dir)).map Op.slot).Nodup := by
  unfold volumeOps
  split
  · exact List.nodup_nil
  · exact List.nodup_singleton _
  · exact List.nodup_nil
  · rename_i storage size _ _
    cases storage.or (i.config.storageFor i.node) with
    | none => exact List.nodup_nil
    | some st => exact List.nodup_singleton _
  · unfold diskOps
    split_ifs <;> simp [Op.slot]

/-- **No two operations of a plan share a slot (proved)**, the names of the volumes being
distinct. -/
theorem planOps_slots_nodup {i : Inputs} (hnd : (i.volumes.map Volume.name).Nodup) :
    ((planOps i).map Op.slot).Nodup := by
  have hvol : ∀ v, ∀ s ∈ (volumeOps i v (i.guest.mountAt v.dir)).map Op.slot,
      s.dir = some v.dir := by
    intro v s hs
    obtain ⟨op, hop, rfl⟩ := List.mem_map.mp hs
    exact slot_dir_of_volumeOp (volumeOp_of_mem hop)
  have hvols : ((i.volumes.flatMap fun v => volumeOps i v (i.guest.mountAt v.dir)).map
      Op.slot).Nodup := by
    rw [List.map_flatMap, List.nodup_flatMap]
    refine ⟨fun v _ => volumeOps_slots_nodup i v, (List.pairwise_map.mp hnd).imp ?_⟩
    intro v w hvw s hs hs'
    have hdir : v.dir = w.dir := Option.some.inj ((hvol v s hs).symm.trans (hvol w s hs'))
    exact hvw (dir_inj hdir)
  have hnone : ∀ s ∈ (i.volumes.flatMap fun v => volumeOps i v (i.guest.mountAt v.dir)).map Op.slot,
      s.dir ≠ none := by
    intro s hs
    rw [List.map_flatMap, List.mem_flatMap] at hs
    obtain ⟨v, -, hs⟩ := hs
    rw [hvol v s hs]
    exact Option.some_ne_none _
  have hfeat : ∀ s ∈ (featureOps i.guest).map Op.slot, s = .features := by
    unfold featureOps
    split_ifs <;> simp [Op.slot]
  have htag : ∀ s ∈ (tagOps i.guest i.tag).map Op.slot, s = .tag := by
    unfold tagOps
    split
    · split_ifs <;> simp [Op.slot]
    · simp
  have hfnd : ((featureOps i.guest).map Op.slot).Nodup := by
    unfold featureOps
    split_ifs <;> simp
  have htnd : ((tagOps i.guest i.tag).map Op.slot).Nodup := by
    unfold tagOps
    split
    · split_ifs <;> simp
    · simp
  rw [planOps, List.map_append, List.map_append]
  refine List.nodup_append'.mpr ⟨List.nodup_append'.mpr ⟨hfnd, htnd, ?_⟩, hvols, ?_⟩
  · intro s hs hs'
    rw [hfeat s hs] at hs'
    cases htag _ hs'
  · intro s hs hs'
    rcases List.mem_append.mp hs with hs | hs
    · exact hnone s hs' (by rw [hfeat s hs]; rfl)
    · exact hnone s hs' (by rw [htag s hs]; rfl)

/-! ### What the snapshot still says truly -/

/-- What an operation that was planned over `g` needs of the config when its turn comes. -/
def Ready (g : GuestConfig) (conf : PveConfig) : Op → Prop
  | .setFeatures s => s = featuresText (wantedFeatures g.features) ∧ conf.features = g.features
  | .addTag _ => conf.tags = g.tags
  | .createDisk mp _ _ _ | .createBind mp _ =>
      ',' ∉ mp ∧ ∀ k m, conf.mountOf k = some m → m.mp ≠ some mp
  | .resize key mp _ _ => ∃ m, conf.mountOf key = some m ∧ m.mp = some mp
  | .setBackup m _ => (m.Written ∧ m.mp.isSome) ∧
      ∃ size, conf.mountOf m.key = some { m with size := size }

/-- The volume of a line that is rewritten is read back as it stands. -/
def VolumeRereads : Op → Prop
  | .setBackup m _ => Mount.cleanVolume m.volume = m.volume
  | _ => True

theorem ready_of_mem {vmid : ℕ} {conf : PveConfig} {i : Inputs} {op : Op}
    (hread : parseConfig vmid conf = .ok i.guest)
    (hname : ∀ v ∈ i.volumes, validVolumeName v.name = true) (hop : op ∈ planOps i) :
    Ready i.guest conf op := by
  have hr := parseConfig_ok hread
  have hfree : ∀ v : Volume, i.guest.mountAt v.dir = none →
      ∀ k m, conf.mountOf k = some m → m.mp ≠ some v.dir := by
    intro v hv k m hm
    obtain rfl := PveConfig.key_of_mountOf hm
    exact mountAt_eq_none_iff.mp hv m (hr.mem_mounts_iff.mpr hm)
  rcases op_cases hop with rfl | ⟨t, -, rfl⟩ | ⟨v, hv, hvo⟩
  · exact ⟨rfl, hr.features_eq.symm⟩
  · exact hr.tags_eq.symm
  · have hcomma := comma_not_mem_dir (hname v hv)
    cases hvo with
    | createBind _ hnone => exact ⟨hcomma, hfree v hnone⟩
    | createDisk _ _ hnone => exact ⟨hcomma, hfree v hnone⟩
    | resize _ hm _ _ =>
      obtain ⟨hmem, hmp⟩ := mountAt_eq_some hm
      exact ⟨_, hr.mem_mounts_iff.mp hmem, hmp⟩
    | @setBackup storage size m _ hm _ _ =>
      obtain ⟨hmem, hmp⟩ := mountAt_eq_some hm
      exact ⟨⟨hr.written hmem, by simp [hmp]⟩, m.size, hr.mem_mounts_iff.mp hmem⟩

section Step

variable {g : GuestConfig} {next : ℕ} {conf conf' : PveConfig} {op : Op}

/-- A rewritten line reads back as its mount, with the flag changed and the size reread. -/
theorem parse_setBackup {m : Mount} {size : Option Size} (backup : Bool) (hw : m.Written)
    (hm : conf.mountOf m.key = some { m with size := size })
    (hv : Mount.cleanVolume m.volume = m.volume) :
    Mount.parse m.key ({ m with backup := backup } : Mount).display
      = .ok { m with backup := backup, size := m.size.map Size.reread } := by
  obtain ⟨-, v, -, hp⟩ := PveConfig.mountOf_eq_some_iff.mp hm
  have hne : m.volume ≠ [] := (Mount.parse_written hp).2.2
  rw [Mount.parse_display (hw.withBackup backup)]
  simp only [hv, if_neg hne]

/-- Where a call writes a mount that was there, and with what it leaves there. -/
theorem mountOf_performs {k : Text} {m : Mount} (hc : Counted g next conf)
    (hr : Ready g conf op) (hv : VolumeRereads op)
    (hp : Performs AllocatedAs conf conf' op (opCall g next op).1)
    (hm : conf.mountOf k = some m) :
    ∃ m', conf'.mountOf k = some m' ∧ m'.volume = m.volume ∧ m'.mp = m.mp ∧ m'.other = m.other ∧
      (m' = { m with size := m'.size } ∨ op.slot = .flag m.mp) := by
  have hkey : isMountKey k = true := (PveConfig.mountOf_eq_some_iff.mp hm).1
  have hsome : conf.get? k ≠ none := by
    obtain ⟨-, v, hv, -⟩ := PveConfig.mountOf_eq_some_iff.mp hm
    rw [hv]
    exact Option.some_ne_none v
  have hsame : ∀ {key line : Text}, PveConfig.Stored key line conf conf' → k ≠ key →
      ∃ m', conf'.mountOf k = some m' ∧ m'.volume = m.volume ∧ m'.mp = m.mp ∧ m'.other = m.other ∧
        (m' = { m with size := m'.size } ∨ op.slot = .flag m.mp) := by
    intro key line hs hne
    exact ⟨m, (PveConfig.mountOf_stored_ne hs hne).trans hm, rfl, rfl, rfl, .inl rfl⟩
  -- a name is no mount key, and a fresh key holds no mount
  have hnames : ∀ {name : Text}, isMountKey name = false → k ≠ name := by
    rintro name hn rfl
    rw [hkey] at hn
    exact Bool.noConfusion hn
  have hfresh : k ≠ mpKey (takeIndex g.usedIndexes next) := fun h => hsome (h ▸ hc.fresh)
  cases op with
  | setFeatures s =>
    cases hp with
    | setFeatures hs => exact hsame hs (hnames (by decide))
  | addTag t =>
    cases hp with
    | addTag hs => exact hsame hs (hnames (by decide))
  | createDisk mp st size b =>
    cases hp with
    | createDisk _ hs => exact hsame hs hfresh
  | createBind mp path =>
    cases hp with
    | createBind hs => exact hsame hs hfresh
  | resize key mp old new =>
    cases hp with
    | @resize _ _ _ _ _ line m₀ hm₀ hline hs =>
      by_cases hk : k = key
      · subst hk
        obtain rfl : m = m₀ := Option.some.inj (hm.symm.trans hm₀)
        exact ⟨_, PveConfig.mountOf_stored_ok hs hkey hline, rfl, rfl, rfl, .inl rfl⟩
      · exact hsame hs hk
  | setBackup m₀ b =>
    cases hp with
    | setBackup hs =>
      by_cases hk : k = m₀.key
      · subst hk
        obtain ⟨⟨hw, -⟩, size, hm₀⟩ := hr
        obtain rfl : m = { m₀ with size := size } := Option.some.inj (hm.symm.trans hm₀)
        have hline := parse_setBackup b hw hm₀ hv
        exact ⟨_, PveConfig.mountOf_stored_ok hs hkey hline, rfl, rfl, rfl, .inr rfl⟩
      · exact hsame hs hk

/-- **One lemma for where a call writes.**  The mounts under its key, before and after, are at the
directory of the operation, and only a create finds none there. -/
theorem writes_of_performs (hc : Counted g next conf) (hr : Ready g conf op)
    (hp : Performs AllocatedAs conf conf' op (opCall g next op).1) :
    ∃ key line, PveConfig.Stored key line conf conf' ∧
      (∀ m, conf'.mountOf key = some m → m.mp = op.slot.dir) ∧
      ((∃ m, conf.mountOf key = some m ∧ m.mp = op.slot.dir) ∨
        (isMountKey key = true ∧ conf.get? key = none ∧ ∃ mp, op.slot = .create mp) ∨
        (op.slot = .features ∧ key = "features") ∨ (op.slot = .tag ∧ key = "tags")) := by
  have hparse : ∀ {key line : Text} {m : Mount}, PveConfig.Stored key line conf conf' →
      conf'.mountOf key = some m → Mount.parse key line = .ok m := by
    intro key line m hs hm
    obtain ⟨-, v, hv, hp⟩ := PveConfig.mountOf_eq_some_iff.mp hm
    rw [hs key, if_pos rfl] at hv
    cases hv
    exact hp
  have hnone : ∀ {key : Text}, isMountKey key = false → ∀ m, conf'.mountOf key = some m →
      m.mp = op.slot.dir := by
    intro key hk m hm
    rw [(PveConfig.mountOf_eq_some_iff.mp hm).1] at hk
    exact Bool.noConfusion hk
  cases op with
  | setFeatures s =>
    cases hp with
    | setFeatures hs => exact ⟨_, _, hs, hnone (by decide), .inr (.inr (.inl ⟨rfl, rfl⟩))⟩
  | addTag t =>
    cases hp with
    | addTag hs => exact ⟨_, _, hs, hnone (by decide), .inr (.inr (.inr ⟨rfl, rfl⟩))⟩
  | createDisk mp st size b =>
    cases hp with
    | createDisk ha hs =>
      refine ⟨_, _, hs, fun m hm => ?_, .inr (.inl ⟨isMountKey_mpKey _, hc.fresh, mp, rfl⟩)⟩
      have hm := hparse hs hm
      rcases ha with rfl | ha
      · exact mp_of_parse_diskSpec hr.1 hm
      · cases ha with
        | own hline _ hmp _ _ =>
          cases hline.symm.trans hm
          exact hmp
  | createBind mp path =>
    cases hp with
    | createBind hs =>
      exact ⟨_, _, hs, fun m hm => mp_of_parse_bindSpec hr.1 (hparse hs hm),
        .inr (.inl ⟨isMountKey_mpKey _, hc.fresh, mp, rfl⟩)⟩
  | resize key mp old new =>
    cases hp with
    | resize hm hline hs =>
      obtain ⟨m₀, hm₀, hmp⟩ := hr
      obtain rfl := Option.some.inj (hm.symm.trans hm₀)
      refine ⟨_, _, hs, fun m' hm' => ?_, .inl ⟨_, hm, hmp⟩⟩
      cases hline.symm.trans (hparse hs hm')
      exact hmp
  | setBackup m₀ b =>
    cases hp with
    | setBackup hs =>
      obtain ⟨⟨hw, -⟩, size, hm₀⟩ := hr
      refine ⟨_, _, hs, fun m' hm' => ?_, .inl ⟨_, hm₀, rfl⟩⟩
      have hline := hparse hs hm'
      rw [Mount.parse_display (hw.withBackup b)] at hline
      split_ifs at hline
      · exact absurd hline bail_ne_ok
      · cases hline
        rfl

/-- A mount that a call leaves was there with its path, or was created at its directory. -/
theorem of_mountOf_performs {k : Text} {m' : Mount} (hc : Counted g next conf)
    (hr : Ready g conf op) (hp : Performs AllocatedAs conf conf' op (opCall g next op).1)
    (hm' : conf'.mountOf k = some m') :
    (∃ m, conf.mountOf k = some m ∧ m'.mp = m.mp) ∨ ∃ mp, op.slot = .create mp ∧ m'.mp = some mp := by
  obtain ⟨key, line, hs, hnew, hold⟩ := writes_of_performs hc hr hp
  by_cases hk : k = key
  · subst hk
    have hmp := hnew m' hm'
    rcases hold with ⟨m, hm, hmp'⟩ | ⟨-, -, mp, hslot⟩ | ⟨-, rfl⟩ | ⟨-, rfl⟩
    · exact .inl ⟨m, hm, hmp.trans hmp'.symm⟩
    · exact .inr ⟨mp, hslot, by rw [hmp, hslot]; rfl⟩
    · exact absurd (PveConfig.mountOf_eq_some_iff.mp hm').1 (by decide)
    · exact absurd (PveConfig.mountOf_eq_some_iff.mp hm').1 (by decide)
  · rw [PveConfig.mountOf_stored_ne hs hk] at hm'
    exact .inl ⟨m', hm', rfl⟩

theorem features_performs (hc : Counted g next conf) (hr : Ready g conf op)
    (hop : op.slot ≠ .features) (hp : Performs AllocatedAs conf conf' op (opCall g next op).1) :
    conf'.features = conf.features := by
  obtain ⟨key, line, hs, -, hold⟩ := writes_of_performs hc hr hp
  refine PveConfig.features_stored_ne hs ?_
  rintro rfl
  rcases hold with ⟨m, hm, -⟩ | ⟨hk, -⟩ | ⟨h, -⟩ | ⟨-, h⟩
  · exact absurd (PveConfig.mountOf_eq_some_iff.mp hm).1 (by decide)
  · exact absurd hk (by decide)
  · exact hop h
  · exact absurd h (by decide)

theorem tags_performs (hc : Counted g next conf) (hr : Ready g conf op) (hop : op.slot ≠ .tag)
    (hp : Performs AllocatedAs conf conf' op (opCall g next op).1) : conf'.tags = conf.tags := by
  obtain ⟨key, line, hs, -, hold⟩ := writes_of_performs hc hr hp
  refine PveConfig.tags_stored_ne hs ?_
  rintro rfl
  rcases hold with ⟨m, hm, -⟩ | ⟨hk, -⟩ | ⟨-, h⟩ | ⟨h, -⟩
  · exact absurd (PveConfig.mountOf_eq_some_iff.mp hm).1 (by decide)
  · exact absurd hk (by decide)
  · exact absurd h (by decide)
  · exact hop h

/-- A directory an operation is not about has the same mount after it. -/
theorem mountOf_dir_performs {dir k : Text} {m : Mount} (hc : Counted g next conf)
    (hr : Ready g conf op) (hp : Performs AllocatedAs conf conf' op (opCall g next op).1)
    (hne : op.slot.dir ≠ some dir) :
    conf'.mountOf k = some m ∧ m.mp = some dir ↔ conf.mountOf k = some m ∧ m.mp = some dir := by
  obtain ⟨key, line, hs, hnew, hold⟩ := writes_of_performs hc hr hp
  by_cases hk : k = key
  · subst hk
    constructor
    · rintro ⟨hm, hmp⟩
      exact absurd ((hnew m hm).symm.trans hmp) hne
    · rintro ⟨hm, hmp⟩
      exfalso
      obtain ⟨hkey, v, hv, -⟩ := PveConfig.mountOf_eq_some_iff.mp hm
      rcases hold with ⟨m', hm', hmp'⟩ | ⟨-, hnone, -⟩ | ⟨-, rfl⟩ | ⟨-, rfl⟩
      · cases hm.symm.trans hm'
        exact hne (hmp'.symm.trans hmp)
      · rw [hv] at hnone
        cases hnone
      · exact absurd hkey (by decide)
      · exact absurd hkey (by decide)
  · rw [PveConfig.mountOf_stored_ne hs hk]

/-- An operation that may come before another in a plan: they share no slot, and a line is rewritten
for its flag only when nothing else is left to do at its directory. -/
def Op.Before (op op' : Op) : Prop :=
  op.slot ≠ op'.slot ∧ ∀ m b, op = .setBackup m b → op'.slot.dir ≠ m.mp

/-- **The step lemma for what is still to do.**  A performed call leaves every operation after it
ready. -/
theorem Ready.of_performs {op' : Op} (hc : Counted g next conf) (hr : Ready g conf op)
    (hp : Performs AllocatedAs conf conf' op (opCall g next op).1) (hord : op.Before op')
    (h : Ready g conf op') : Ready g conf' op' := by
  obtain ⟨hne, hlast⟩ := hord
  have hfree : ∀ {mp : Text}, op.slot ≠ .create mp →
      (∀ k m, conf.mountOf k = some m → m.mp ≠ some mp) →
        ∀ k m, conf'.mountOf k = some m → m.mp ≠ some mp := by
    intro mp hslot hno k m' hm' hmp
    rcases of_mountOf_performs hc hr hp hm' with ⟨m, hm, heq⟩ | ⟨mp', hs, hmp'⟩
    · exact hno k m hm (heq ▸ hmp)
    · rw [hmp', Option.some.injEq] at hmp
      exact hslot (hmp ▸ hs)
  -- at a directory that holds a mount, only that mount's own operations write
  have hheld : ∀ {k mp : Text} {m : Mount}, conf.mountOf k = some m → m.mp = some mp →
      op'.slot.dir = some mp → ∃ size, conf'.mountOf k = some { m with size := size } := by
    intro k mp m hm hmp hdir'
    by_cases hdir : op.slot.dir = some mp
    · cases op with
      | setFeatures s => cases hdir
      | addTag t => cases hdir
      | createDisk mp' st size b =>
        cases hdir
        exact absurd hmp (hr.2 k m hm)
      | createBind mp' path =>
        cases hdir
        exact absurd hmp (hr.2 k m hm)
      | resize key mp' old new =>
        cases hdir
        obtain ⟨m', hm', -, -, -, hsize | hslot⟩ := mountOf_performs hc hr trivial hp hm
        · exact ⟨m'.size, by rw [hm', ← hsize]⟩
        · cases hslot
      | setBackup m₀ b => exact absurd (hdir'.trans hdir.symm) (hlast m₀ b rfl)
    · obtain ⟨hm', -⟩ := (mountOf_dir_performs hc hr hp hdir).mpr ⟨hm, hmp⟩
      exact ⟨m.size, hm'⟩
  cases op' with
  | setFeatures s => exact ⟨h.1, (features_performs hc hr hne hp).trans h.2⟩
  | addTag t => exact (tags_performs hc hr hne hp).trans h
  | createDisk mp st size b => exact ⟨h.1, hfree hne h.2⟩
  | createBind mp path => exact ⟨h.1, hfree hne h.2⟩
  | resize key mp old new =>
    obtain ⟨m, hm, hmp⟩ := h
    obtain ⟨size, hm'⟩ := hheld hm hmp rfl
    exact ⟨_, hm', hmp⟩
  | setBackup m b =>
    obtain ⟨⟨hw, hsome⟩, size, hm⟩ := h
    obtain ⟨p, hp'⟩ := Option.isSome_iff_exists.mp hsome
    obtain ⟨size', hm'⟩ := hheld hm hp' hp'
    exact ⟨⟨hw, hsome⟩, size', hm'⟩

/-- **The step lemma for what is kept (proved).** -/
theorem kept_of_performs (hc : Counted g next conf) (hr : Ready g conf op) (hv : VolumeRereads op)
    (hf : FeaturesWritten g.features) (ht : ∀ t ∈ g.tags, SingleTag t)
    (hp : Performs AllocatedAs conf conf' op (opCall g next op).1) : Kept conf conf' where
  mounts k m hm := by
    obtain ⟨m', hm', hvol, hmp, ho, -⟩ := mountOf_performs hc hr hv hp hm
    exact ⟨m', hm', hvol, hmp, ho⟩
  features k v hkv := by
    by_cases hop : op.slot = .features
    · cases op with
      | setFeatures s =>
        obtain ⟨rfl, heq⟩ := hr
        cases hp with
        | setFeatures hs =>
          rw [PveConfig.features_stored hs, parseFeatures_featuresText (featuresWritten_wanted hf)]
          exact wantedFeatures_keeps (heq ▸ hkv)
      | _ => cases hop
    · rw [features_performs hc hr hop hp]
      exact hkv
  tags t htag := by
    by_cases hop : op.slot = .tag
    · cases op with
      | addTag t' =>
        cases hp with
        | addTag hs =>
          rw [PveConfig.tags_stored hs, parseTags_intercalate ht]
          exact List.mem_append_left _ (hr ▸ htag)
      | _ => cases hop
    · rw [tags_performs hc hr hop hp]
      exact htag

end Step

/-! ### Along a plan -/

/-- **The operations of a plan come in an order that keeps each ready (proved).** -/
theorem planOps_before {i : Inputs} (hnd : (i.volumes.map Volume.name).Nodup) :
    (planOps i).Pairwise Op.Before := by
  have hvolume : ∀ v, (volumeOps i v (i.guest.mountAt v.dir)).Pairwise fun op op' =>
      ∀ m b, op = .setBackup m b → op'.slot.dir ≠ m.mp := by
    intro v
    unfold volumeOps
    split
    · exact .nil
    · exact List.pairwise_singleton _ _
    · exact .nil
    · rename_i storage size _ _
      cases storage.or (i.config.storageFor i.node) with
      | none => exact .nil
      | some st => exact List.pairwise_singleton _ _
    · unfold diskOps
      split_ifs <;> simp
  have hlast : (planOps i).Pairwise fun op op' =>
      ∀ m b, op = .setBackup m b → op'.slot.dir ≠ m.mp := by
    unfold planOps featureOps tagOps
    refine List.pairwise_append.mpr ⟨?_, List.pairwise_flatMap.mpr ⟨fun v _ => hvolume v, ?_⟩, ?_⟩
    · split_ifs <;> split <;> try split_ifs
      all_goals simp
    · refine (List.pairwise_map.mp hnd).imp fun {v w} hvw op hop op' hop' m b hset hdir => ?_
      subst hset
      have hv := slot_dir_of_volumeOp (volumeOp_of_mem hop)
      have hw := slot_dir_of_volumeOp (volumeOp_of_mem hop')
      exact hvw (dir_inj (Option.some.inj (hv.symm.trans (hdir.symm.trans hw))))
    · intro op hop op' hop' m b hset
      subst hset
      split_ifs at hop <;> split at hop <;> try split_ifs at hop
      all_goals simp at hop
  exact (List.pairwise_map.mp (planOps_slots_nodup hnd)).imp₂ (fun _ _ h h' => ⟨h, h'⟩) hlast

/-- What holds between two calls of a plan: `rest` is still to do. -/
structure Underway (i : Inputs) (next : ℕ) (conf : PveConfig) (rest : List Op) : Prop where
  counted : Counted i.guest next conf
  ready : ∀ op ∈ rest, Ready i.guest conf op
  order : rest.Pairwise Op.Before

/-- A plan over a config that was read is underway. -/
theorem underway_start {vmid : ℕ} {conf : PveConfig} {i : Inputs}
    (hread : parseConfig vmid conf = .ok i.guest)
    (hname : ∀ v ∈ i.volumes, validVolumeName v.name = true)
    (hnd : (i.volumes.map Volume.name).Nodup) :
    Underway i i.guest.freeMpIndex conf (planOps i) :=
  ⟨counted_start hread, fun _ hop => ready_of_mem hread hname hop, planOps_before hnd⟩

namespace Underway

variable {i : Inputs} {next : ℕ} {conf conf' : PveConfig} {op : Op} {rest : List Op}

theorem step (h : Underway i next conf (op :: rest))
    (hp : Performs AllocatedAs conf conf' op (opCall i.guest next op).1) :
    Underway i (opCall i.guest next op).2 conf' rest := by
  have hr := h.ready op (by simp)
  obtain ⟨hbefore, horder⟩ := List.pairwise_cons.mp h.order
  have hset : ∀ m b, op = .setBackup m b → (conf.get? m.key).isSome := by
    rintro m b rfl
    obtain ⟨-, size, hm⟩ := hr
    obtain ⟨-, v, hv, -⟩ := PveConfig.mountOf_eq_some_iff.mp hm
    rw [hv]
    rfl
  exact ⟨h.counted.performs hp hset, fun op' hop' => Ready.of_performs h.counted hr hp
    (hbefore op' hop') (h.ready op' (by simp [hop'])), horder⟩

/-- **The run lemma.**  What every call of a plan preserves holds after any number of them, and the
rest of the plan is underway. -/
theorem run {P : PveConfig → List Op → Prop}
    (hstep : ∀ {next : ℕ} {conf conf' : PveConfig} {op : Op} {rest : List Op},
      Underway i next conf (op :: rest) → P conf (op :: rest) →
        Performs AllocatedAs conf conf' op (opCall i.guest next op).1 → P conf' rest)
    {n : ℕ} {ops : List Op} (h : Underway i next conf ops) (hP : P conf ops)
    (hp : PerformsAll AllocatedAs conf ((callsFrom i.guest next ops).take n) conf') :
    ∃ next', Underway i next' conf' (ops.drop n) ∧
      (callsFrom i.guest next ops).drop n = callsFrom i.guest next' (ops.drop n) ∧
      P conf' (ops.drop n) := by
  induction ops generalizing next n conf with
  | nil =>
    simp only [callsFrom, List.take_nil] at hp
    cases hp
    exact ⟨next, by simpa using h, by simp [callsFrom], by simpa using hP⟩
  | cons op ops ih =>
    cases n with
    | zero =>
      cases hp
      exact ⟨next, h, rfl, hP⟩
    | succ n =>
      cases hp with
      | cons hop hrest => exact ih (h.step hop) (hstep h hP hop) hrest

end Underway

/-! ### Along a history of applies -/

/-- One apply: the document's spec with the limits it is held to, what the plan is derived from,
and the plan. -/
structure Apply where
  vmid : ℕ
  spec : Value
  limits : Limits
  inputs : Inputs
  plan : Plan

namespace Apply

/-- The apply read its guest from `conf`, its document was accepted, and its plan was built. -/
structure Planned (a : Apply) (conf : PveConfig) : Prop where
  read : parseConfig a.vmid conf = .ok a.inputs.guest
  volumes : PveCompose.volumes a.spec a.limits = .ok a.inputs.volumes
  names : (a.inputs.volumes.map Volume.name).Nodup
  plan : build a.inputs = .ok a.plan

def steps (a : Apply) : List (Op × Call) := execute a.inputs.guest a.plan

/-- At the directory of a disk volume, no disk is recorded within a MiB of `2^64` bytes, and a line
that is rewritten begins with a volume that is read back as it stands. -/
def Sound (a : Apply) : Prop :=
  ∀ v ∈ a.inputs.volumes, ∀ storage size m, v.kind = .disk storage size →
    a.inputs.guest.mountAt v.dir = some m → m.isBind = false →
      (∀ s ∈ m.size, s.bytes + 2 ^ 20 < 2 ^ 64) ∧
        (m.backup ≠ v.backup → Mount.cleanVolume m.volume = m.volume)

theorem Planned.underway {a : Apply} {conf : PveConfig} (h : a.Planned conf) :
    Underway a.inputs a.inputs.guest.freeMpIndex conf a.plan.ops := by
  rw [(build_ok h.plan).2]
  exact underway_start h.read (fun v hv => (volumes_allowed h.volumes v hv).name) h.names

theorem Planned.rereads {a : Apply} {conf : PveConfig} (h : a.Planned conf) (hs : a.Sound) :
    ∀ op ∈ a.plan.ops, VolumeRereads op := by
  intro op hop
  rw [(build_ok h.plan).2] at hop
  rcases op_cases hop with rfl | ⟨t, -, rfl⟩ | ⟨v, hv, hvo⟩
  · trivial
  · trivial
  · cases hvo with
    | setBackup hk hm hb hne => exact (hs v hv _ _ _ hk hm hb).2 hne
    | createBind _ _ => trivial
    | createDisk _ _ _ => trivial
    | resize _ _ _ _ => trivial

/-- **Any number of the calls of a sound apply keep everything.** -/
theorem Planned.kept {a : Apply} {conf conf' : PveConfig} {n : ℕ} (h : a.Planned conf)
    (hs : a.Sound) (hp : PerformsAll AllocatedAs conf (a.steps.take n) conf') : Kept conf conf' := by
  have hr := parseConfig_ok h.read
  obtain ⟨-, -, -, hkept, -⟩ := h.underway.run (P := fun c rest => Kept conf c ∧
      ∀ op ∈ rest, VolumeRereads op)
    (fun hu hP hop => ⟨hP.1.trans (kept_of_performs hu.counted (hu.ready _ (by simp))
      (hP.2 _ (by simp)) hr.featuresWritten hr.singleTags hop), fun op' hop' => hP.2 op' (by simp [hop'])⟩)
    ⟨Kept.refl conf, h.rereads hs⟩ hp
  exact hkept

end Apply

/-- What is asked of PVE by one call of an apply over `g`, in the config as it stands then. -/
def Asked (g : GuestConfig) (conf : PveConfig) : Op → Call → Prop
  | .createDisk mp _ _ _, call | .createBind mp _, call => ∃ idx, call.key = mpKey idx ∧
      (∀ k m, conf.mountOf k = some m → m.index ≠ some idx) ∧
        ∀ k m, conf.mountOf k = some m → m.mp ≠ some mp
  | .resize key _ _ new, _ => (∃ m, conf.mountOf key = some m) ∧
      ∃ m ∈ g.mounts, m.key = key ∧ (m.size.getD Size.zero).bytes < new.bytes
  | .setFeatures _, _ | .addTag _, _ | .setBackup _ _, _ => True

/-- The directory an operation creates a mount at. -/
def Op.created : Op → Option Text
  | .createDisk mp _ _ _ | .createBind mp _ => some mp
  | .setFeatures _ | .addTag _ | .resize _ _ _ _ | .setBackup _ _ => none

theorem Underway.asked {a : Apply} {next : ℕ} {conf conf₀ : PveConfig} {op : Op} {rest : List Op}
    (h : Underway a.inputs next conf (op :: rest)) (hop : op ∈ planOps a.inputs)
    (ha : a.Planned conf₀) (hs : a.Sound) :
    Asked a.inputs.guest conf op (opCall a.inputs.guest next op).1 := by
  have hr := h.ready op (by simp)
  have hindex : ∀ k m, conf.mountOf k = some m →
      m.index ≠ some (takeIndex a.inputs.guest.usedIndexes next) := by
    intro k m hm hidx
    obtain ⟨hk, v, hv, -⟩ := PveConfig.mountOf_eq_some_iff.mp hm
    obtain ⟨hle, hfree, -⟩ := takeIndex_spec a.inputs.guest.usedIndexes next
    have hidx' : keyIndex m.key = some (takeIndex a.inputs.guest.usedIndexes next) := hidx
    rw [PveConfig.key_of_mountOf hm] at hidx'
    rcases h.counted.met k _ hk (by rw [hv]; rfl) hidx' with hu | hlt
    · exact hfree hu
    · omega
  rcases op_cases hop with rfl | ⟨t, -, rfl⟩ | ⟨v, hv, hvo⟩
  · trivial
  · trivial
  · cases hvo with
    | createBind _ _ => exact ⟨_, rfl, hindex, hr.2⟩
    | createDisk _ _ _ => exact ⟨_, rfl, hindex, hr.2⟩
    | @resize storage size m hk hm hb hsat =>
      obtain ⟨m', hm', -⟩ := hr
      refine ⟨⟨m', hm'⟩, m, (mountAt_eq_some hm).1, rfl, ?_⟩
      have hpos := ((volumes_allowed ha.volumes v hv).disk _ _ hk).pos
      cases hsz : m.size with
      | none => exact hpos
      | some s =>
        have hwrap := (hs v hv _ _ _ hk hm hb).1 s hsz
        rw [hsz, diskSizeSatisfied, Nat.mod_eq_of_lt hwrap] at hsat
        have hlt : ¬ size.bytes ≤ s.bytes + 2 ^ 20 := of_decide_eq_false hsat
        change s.bytes < size.bytes
        omega
    | setBackup _ _ _ _ => trivial

/-- A history of applies that all meet `C`, each stopped after any number of its calls. -/
inductive History (C : Apply → Prop) (conf₀ : PveConfig) : PveConfig → Prop where
  | start : History C conf₀ conf₀
  | apply {conf conf' : PveConfig} (a : Apply) (n : ℕ) : History C conf₀ conf → a.Planned conf →
      C a → PerformsAll AllocatedAs conf (a.steps.take n) conf' → History C conf₀ conf'

/-- **Nothing is ever removed, moved or shrunk (proved)**, in every history of sound applies: what
was there is kept, no directory is created twice in a plan, and every call of the next apply asks
for a free index at a free directory, or for more than is recorded. -/
theorem history_keeps {conf₀ conf : PveConfig} (h : History Apply.Sound conf₀ conf) :
    Kept conf₀ conf ∧ ∀ a : Apply, a.Planned conf → a.Sound →
      (a.plan.ops.filterMap Op.created).Nodup ∧
      ∀ n conf', PerformsAll AllocatedAs conf (a.steps.take n) conf' →
        ∀ op call, a.steps[n]? = some (op, call) → Asked a.inputs.guest conf' op call := by
  constructor
  · induction h with
    | start => exact Kept.refl _
    | apply a n _ ha hs hp ih => exact ih.trans (ha.kept hs hp)
  · intro a ha hs
    have hu := ha.underway
    constructor
    · -- a created directory is its slot
      have hslot : ∀ ops : List Op, (ops.map Op.slot).Nodup → (ops.filterMap Op.created).Nodup := by
        intro ops hnd
        have hsub : ((ops.filterMap Op.created).map Slot.create).Sublist (ops.map Op.slot) := by
          clear hnd
          induction ops with
          | nil => exact List.Sublist.refl _
          | cons op ops ih =>
            cases op with
            | createDisk _ _ _ _ => exact ih.cons_cons _
            | createBind _ _ => exact ih.cons_cons _
            | setFeatures _ => exact ih.cons _
            | addTag _ => exact ih.cons _
            | resize _ _ _ _ => exact ih.cons _
            | setBackup _ _ => exact ih.cons _
        exact (hsub.nodup hnd).of_map _
      rw [(build_ok ha.plan).2]
      exact hslot _ (planOps_slots_nodup ha.names)
    · intro n conf' hp op call hn
      obtain ⟨next', hu', hcalls, -⟩ := hu.run (P := fun _ _ => True) (fun _ _ _ => trivial) trivial hp
      have hhead : a.steps.drop n = (op, call) :: a.steps.drop (n + 1) := by
        obtain ⟨hlt, hget⟩ := List.getElem?_eq_some_iff.mp hn
        rw [List.drop_eq_getElem_cons hlt, hget]
      change (callsFrom a.inputs.guest a.inputs.guest.freeMpIndex a.plan.ops).drop n = _ at hhead
      rw [hcalls] at hhead
      cases hops : a.plan.ops.drop n with
      | nil =>
        rw [hops] at hhead
        cases hhead
      | cons op' rest =>
        rw [hops] at hhead hu'
        obtain ⟨hstep, -⟩ := List.cons.inj hhead
        cases hstep
        refine hu'.asked ?_ ha hs
        rw [← (build_ok ha.plan).2]
        exact List.mem_of_mem_drop (hops ▸ List.mem_cons_self)

/-- A guest whose one disk, at the directory of `db`, is recorded with the given size. -/
def dbConf (size : Size) : PveConfig where
  fields := [("mp0", .string ("local:vm-105-disk-1,mp=/opt/stack/volumes/db,size=" ++ size.display
    ++ ",backup=1")), ("features", .string "keyctl=1,nesting=1"), ("unprivileged", .other "1")]
  distinct := by
    show (["mp0".toList, "features".toList, "unprivileged".toList] : List Text).Nodup
    decide
  small := by
    show 3 ≤ MAX_OUTPUT
    decide

def dbMount (size : Size) : Mount :=
  { key := "mp0", volume := "local:vm-105-disk-1", mp := some "/opt/stack/volumes/db"
    size := some size, backup := true, other := ∅ }

/-- The apply of a document that asks for `want` for `db`, where `held` is recorded. -/
def dbApply (held want : Size) : Apply where
  vmid := 105
  spec := .mapping [(.string "volumes", .mapping [(.string "db", .mapping [(.string "x-pve",
    .mapping [(.string "storage", .string "local"), (.string "size", .string want.display)])])])]
  limits := { bindRoots := [], storages := ["local"], maxDiskGib := 2 ^ 34 }
  inputs :=
    { node := "pve", config := Config.default, tag := none
      guest := { emptyConfig 105 with
        unprivileged := true
        features := ((∅ : TextMap).insert "keyctl" "1").insert "nesting" "1"
        mounts := [dbMount held] }
      volumes := [⟨"db", .disk (some "local") want, none, true⟩] }
  plan := ⟨[.resize "mp0" "/opt/stack/volumes/db" held want], []⟩

def mebibytes (n : ℕ) : Size := Size.saturate (n * 2 ^ 20)

theorem dbApply_planned :
    (dbApply (mebibytes (2 ^ 20)) (mebibytes (2 ^ 44 - 1))).Planned (dbConf (mebibytes (2 ^ 20))) :=
  ⟨by decide, by decide, by decide, by decide⟩

theorem dbApply_performed :
    PerformsAll AllocatedAs (dbConf (mebibytes (2 ^ 20)))
      (dbApply (mebibytes (2 ^ 20)) (mebibytes (2 ^ 44 - 1))).steps
      (dbConf (mebibytes (2 ^ 44 - 1))) := by
  have hm : (dbConf (mebibytes (2 ^ 20))).mountOf "mp0" = some (dbMount (mebibytes (2 ^ 20))) := by
    decide
  have hline : Mount.parse "mp0" ("local:vm-105-disk-1,mp=/opt/stack/volumes/db,size="
      ++ (mebibytes (2 ^ 44 - 1)).display ++ ",backup=1")
        = .ok { dbMount (mebibytes (2 ^ 20)) with size := some (mebibytes (2 ^ 44 - 1)) } := by
    decide
  exact .cons (.resize hm hline (PveConfig.stored_of_set rfl)) .nil

/-- One TiB grown to the largest size the condition allows to have been recorded before. -/
theorem history_keeps_db :
    Kept (dbConf (mebibytes (2 ^ 20))) (dbConf (mebibytes (2 ^ 44 - 1))) := by
  refine (history_keeps (.apply (dbApply (mebibytes (2 ^ 20)) (mebibytes (2 ^ 44 - 1))) 1 .start
    dbApply_planned ?_ dbApply_performed)).1
  intro v hv storage size m _ hm _
  obtain rfl := List.mem_singleton.mp hv
  obtain rfl : m = dbMount (mebibytes (2 ^ 20)) := by
    obtain ⟨hmem, -⟩ := mountAt_eq_some hm
    exact List.mem_singleton.mp hmem
  refine ⟨?_, fun h => absurd rfl h⟩
  rintro s ⟨⟩
  decide

/-- **A recorded size that wraps.**  With `2^64` bytes less one MiB recorded, the next apply of a
document that says one GiB asks PVE for a resize to one GiB. -/
theorem history_shrinks :
    History (fun _ => True) (dbConf (mebibytes (2 ^ 20))) (dbConf (mebibytes (2 ^ 44 - 1))) ∧
    (dbApply (mebibytes (2 ^ 44 - 1)) (mebibytes (2 ^ 10))).Planned
      (dbConf (mebibytes (2 ^ 44 - 1))) ∧
    ∃ op call, (dbApply (mebibytes (2 ^ 44 - 1)) (mebibytes (2 ^ 10))).steps[0]? = some (op, call) ∧
      ¬ Asked (dbApply (mebibytes (2 ^ 44 - 1)) (mebibytes (2 ^ 10))).inputs.guest
        (dbConf (mebibytes (2 ^ 44 - 1))) op call := by
  refine ⟨.apply _ 1 .start dbApply_planned trivial dbApply_performed,
    ⟨by decide, by decide, by decide, by decide⟩, _, _, rfl, ?_⟩
  rintro ⟨-, m, hm, -, hlt⟩
  obtain rfl := List.mem_singleton.mp hm
  exact absurd hlt (by decide)

end PveCompose
