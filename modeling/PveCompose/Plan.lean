import PveCompose.GuestConfig
import PveCompose.Spec

/-!
# The pct-level plan (`plan.rs`)

`build` turns a guest's config and a document's volumes into operations and notes; `execute` turns
the operations into `pct` calls, one each, in order.

* `build_ok` — **PROVED**: a plan is the two features, the tag, and then what each volume asks for
  by itself, in order (`planOps`);
* `VolumeOp` / `volumeOp_of_mem` — **one inversion lemma**: every operation of a volume, with the
  state of its directory that calls for it;
* `takeIndex_spec` — **PROVED**: the index search of a create ends at the first free index.
-/

namespace PveCompose

open Words

inductive Op where
  | setFeatures (s : Text)
  | addTag (t : Text)
  | createDisk (mp storage : Text) (size : Size) (backup : Bool)
  | createBind (mp path : Text)
  | resize (key mp : Text) (old new : Size)
  | setBackup (mount : Mount) (backup : Bool)
deriving DecidableEq

/-- `fmt::Display`. -/
def Op.display : Op → Text
  | .setFeatures s => "features: " ++ s ++ " (takes effect on restart)"
  | .addTag t => "tag: add '" ++ t ++ "'"
  | .createDisk mp storage size backup => "disk: create " ++ size.display ++ " on " ++ storage
      ++ " at " ++ mp ++ (if backup then [] else " (backup=0)" : Text)
  | .createBind mp path => "bind: " ++ path ++ " at " ++ mp
  | .resize key mp old new => "disk: grow " ++ key ++ " (" ++ mp ++ ") " ++ old.display ++ " -> "
      ++ new.display
  | .setBackup m backup => "disk: " ++ m.key ++ " (" ++ m.mp.getD "?" ++ ") backup="
      ++ (if backup then "1" else "0" : Text)

structure Plan where
  ops : List Op
  notes : List Text
deriving DecidableEq

/-- What the plan is derived from. -/
structure Inputs where
  node : Text
  config : Config
  tag : Option Text
  guest : GuestConfig
  volumes : List Volume

/-- `h.bytes() + (1 << 20) >= want.bytes()`, the sum in a `u64`. -/
def diskSizeSatisfied (held : Option Size) (want : Size) : Bool :=
  match held with
  | some h => want.bytes ≤ (h.bytes + 2 ^ 20) % 2 ^ 64
  | none => false

/-! ### Building -/

/-- The features with the two docker needs, where they are not set. -/
def wantedFeatures (features : TextMap) : TextMap :=
  (features.insertIfNew "nesting" "1").insertIfNew "keyctl" "1"

def featuresText (features : TextMap) : Text :=
  List.intercalate "," (features.toList.map fun kv => Mount.optionText kv.1 kv.2)

def featureOps (g : GuestConfig) : List Op :=
  if wantedFeatures g.features ≠ g.features then
    [.setFeatures (featuresText (wantedFeatures g.features))]
  else []

def tagOps (g : GuestConfig) (tag : Option Text) : List Op :=
  match tag with
  | some t => if g.hasTag t then [] else [.addTag t]
  | none => []

/-- A disk volume whose directory holds the mount `m`. -/
def mountedDiskPlan (v : Volume) (storage : Text) (size : Size) (m : Mount) : Plan :=
  if m.isBind then
    { ops := []
      notes := ["volume " ++ v.name ++ ": document says a disk but " ++ m.key ++ " at " ++ v.dir
        ++ " is a bind of " ++ m.volume ++ "; leaving it"] }
  else
    { ops :=
        (if diskSizeSatisfied m.size size then []
          else [.resize m.key v.dir (m.size.getD Size.zero) size])
        ++ if m.backup = v.backup then [] else [.setBackup m v.backup]
      notes :=
        (match m.storage with
          | some st => if st = storage then [] else
              ["volume " ++ v.name ++ ": on " ++ st ++ ", document says " ++ storage
                ++ "; disks are never moved"]
          | none => [])
        ++ if diskSizeSatisfied m.size size then
            (match m.size with
              | some h => if (size.bytes + 2 ^ 20) % 2 ^ 64 < h.bytes then
                  ["volume " ++ v.name ++ ": is " ++ h.display ++ ", document says " ++ size.display
                    ++ "; disks never shrink"] else []
              | none => [])
          else [] }

/-- What one volume asks for, by the mount at its directory. -/
def volumePlan (i : Inputs) (v : Volume) : Result Plan :=
  match v.kind with
  | .plain =>
    match i.guest.mountAt v.dir with
    | none => .ok { ops := [], notes := [] }
    | some m => .ok { ops := [], notes := ["volume " ++ v.name
        ++ ": document says plain directory but " ++ m.key ++ " is mounted at " ++ v.dir
        ++ "; leaving it"] }
  | .bind path =>
    match i.guest.mountAt v.dir with
    | none => .ok { ops := [.createBind v.dir path], notes := [] }
    | some m =>
      if ¬ m.isBind then
        .ok { ops := [], notes := ["volume " ++ v.name ++ ": document says bind of " ++ path
          ++ " but " ++ m.key ++ " at " ++ v.dir ++ " is a disk; leaving it"] }
      else if m.volume ≠ path then
        .ok { ops := [], notes := ["volume " ++ v.name ++ ": bound to " ++ m.volume
          ++ " but document says " ++ path ++ "; change it by hand"] }
      else .ok { ops := [], notes := [] }
  | .disk storage size =>
    match storage.or (i.config.storageFor i.node) with
    | none => bail ("volume " ++ v.name ++ ": no storage: name one in x-pve, or set this node's "
        ++ "default with `pve-compose config set storage <storage>`")
    | some storage =>
      match i.guest.mountAt v.dir with
      | none => .ok { ops := [.createDisk v.dir storage size v.backup], notes := [] }
      | some m => .ok (mountedDiskPlan v storage size m)

/-- Mounted under the volumes directory, but no volume of the document. -/
def orphanNotes (i : Inputs) : List Text :=
  i.guest.mounts.filterMap fun m =>
    m.mp.bind fun mp => (mp.dropPrefix? (VOLUMES_DIR ++ "/")).bind fun name =>
      if i.volumes.any (·.name = name) then none
      else some ("orphan: " ++ m.key ++ " at " ++ mp ++ " has no volume '" ++ name
        ++ "' in the document; kept (remove it by hand)")

def privilegedNotes (g : GuestConfig) : List Text :=
  if g.unprivileged then []
  else ["guest is privileged; pve-compose expects unprivileged wrappers, continuing"]

def build (i : Inputs) : Result Plan :=
  if i.guest.isTemplate then bail ("guest " ++ dec i.guest.vmid ++ " is a template")
  else do
    let plans ← i.volumes.mapM (volumePlan i)
    .ok { ops := featureOps i.guest ++ tagOps i.guest i.tag ++ plans.flatMap Plan.ops
          notes := privilegedNotes i.guest ++ plans.flatMap Plan.notes ++ orphanNotes i }

/-! ### What a plan is -/

/-- The operations of a disk volume whose directory holds `m`. -/
def diskOps (v : Volume) (size : Size) (m : Mount) : List Op :=
  if m.isBind then []
  else (if diskSizeSatisfied m.size size then []
      else [.resize m.key v.dir (m.size.getD Size.zero) size])
    ++ if m.backup = v.backup then [] else [.setBackup m v.backup]

/-- The operations of a volume, by the mount its directory holds. -/
def volumeOps (i : Inputs) (v : Volume) (held : Option Mount) : List Op :=
  match v.kind, held with
  | .plain, _ => []
  | .bind path, none => [.createBind v.dir path]
  | .bind _, some _ => []
  | .disk storage size, none =>
    (storage.or (i.config.storageFor i.node)).toList.map fun st =>
      .createDisk v.dir st size v.backup
  | .disk _ size, some m => diskOps v size m

theorem volumeOps_bind_some {i : Inputs} {v : Volume} {path : Text} (hk : v.kind = .bind path)
    (m : Mount) : volumeOps i v (some m) = [] := by
  unfold volumeOps
  rw [hk]

theorem volumeOps_disk_some {i : Inputs} {v : Volume} {storage : Option Text} {size : Size}
    (hk : v.kind = .disk storage size) (m : Mount) :
    volumeOps i v (some m) = diskOps v size m := by
  unfold volumeOps
  rw [hk]

/-- Every disk is given a storage, by the document or by the node. -/
def HasStorage (i : Inputs) (v : Volume) : Prop :=
  ∀ storage size, v.kind = .disk storage size →
    ∃ st, storage.or (i.config.storageFor i.node) = some st

theorem mountedDiskPlan_ops (v : Volume) (storage : Text) (size : Size) (m : Mount) :
    (mountedDiskPlan v storage size m).ops = diskOps v size m := by
  unfold mountedDiskPlan diskOps
  split_ifs <;> rfl

theorem volumePlan_isOk_iff {i : Inputs} {v : Volume} :
    (∃ p, volumePlan i v = .ok p) ↔ HasStorage i v := by
  unfold volumePlan HasStorage
  cases hk : v.kind with
  | plain => cases i.guest.mountAt v.dir <;> simp
  | bind path =>
    cases i.guest.mountAt v.dir with
    | none => simp
    | some m => dsimp only; split_ifs <;> simp
  | disk storage size =>
    cases hst : storage.or (i.config.storageFor i.node) with
    | none =>
      dsimp only
      rw [hst]
      constructor
      · rintro ⟨p, h⟩
        exact absurd h bail_ne_ok
      · intro h
        obtain ⟨st, hs⟩ := h storage size rfl
        rw [hst] at hs
        cases hs
    | some st =>
      have hok : ∀ storage' size', Kind.disk storage size = .disk storage' size' →
          ∃ st, storage'.or (i.config.storageFor i.node) = some st := by
        rintro _ _ ⟨⟩
        exact ⟨st, hst⟩
      dsimp only
      rw [hst]
      refine ⟨fun _ => hok, fun _ => ?_⟩
      cases i.guest.mountAt v.dir with
      | none => exact ⟨_, rfl⟩
      | some m => exact ⟨_, rfl⟩

theorem volumePlan_ops {i : Inputs} {v : Volume} {p : Plan} (h : volumePlan i v = .ok p) :
    p.ops = volumeOps i v (i.guest.mountAt v.dir) := by
  unfold volumePlan at h
  unfold volumeOps
  cases hk : v.kind with
  | plain =>
    rw [hk] at h
    cases hm : i.guest.mountAt v.dir <;> rw [hm] at h <;> cases h <;> rfl
  | bind path =>
    rw [hk] at h
    cases hm : i.guest.mountAt v.dir with
    | none =>
      rw [hm] at h
      cases h
      rfl
    | some m =>
      rw [hm] at h
      dsimp only at h
      split_ifs at h <;> cases h <;> rfl
  | disk storage size =>
    rw [hk] at h
    dsimp only at h
    cases hst : storage.or (i.config.storageFor i.node) with
    | none =>
      rw [hst] at h
      exact absurd h bail_ne_ok
    | some st =>
      rw [hst] at h
      cases hm : i.guest.mountAt v.dir with
      | none =>
        rw [hm] at h
        cases h
        dsimp only
        rw [hst]
        rfl
      | some m =>
        rw [hm] at h
        cases h
        exact mountedDiskPlan_ops v st size m

/-- The operations of a plan: the features, the tag, and each volume's own. -/
def planOps (i : Inputs) : List Op :=
  featureOps i.guest ++ tagOps i.guest i.tag
    ++ i.volumes.flatMap fun v => volumeOps i v (i.guest.mountAt v.dir)

/-- **What a plan is (proved).** -/
theorem build_ok {i : Inputs} {p : Plan} (h : build i = .ok p) :
    i.guest.isTemplate = false ∧ p.ops = planOps i := by
  unfold build at h
  split_ifs at h with ht
  · exact absurd h bail_ne_ok
  obtain ⟨plans, hplans, h⟩ := bind_eq_ok.mp h
  cases h
  refine ⟨Bool.not_eq_true _ ▸ ht, congrArg (featureOps i.guest ++ tagOps i.guest i.tag ++ ·) ?_⟩
  have hmap : ∀ (vs : List Volume) (ps : List Plan), vs.mapM (volumePlan i) = .ok ps →
      ps.flatMap Plan.ops = vs.flatMap fun v => volumeOps i v (i.guest.mountAt v.dir) := by
    intro vs
    induction vs with
    | nil =>
      intro ps hps
      cases hps
      rfl
    | cons v vs ih =>
      intro ps hps
      rw [List.mapM_cons, bind_eq_ok] at hps
      obtain ⟨q, hq, hps⟩ := hps
      obtain ⟨qs, hqs, hps⟩ := bind_eq_ok.mp hps
      cases hps
      rw [List.flatMap_cons, List.flatMap_cons, ih qs hqs, volumePlan_ops hq]
  exact hmap _ _ hplans

theorem build_isOk_iff {i : Inputs} :
    (∃ p, build i = .ok p) ↔ i.guest.isTemplate = false ∧ ∀ v ∈ i.volumes, HasStorage i v := by
  unfold build
  cases ht : i.guest.isTemplate with
  | true => simp
  | false =>
    simp only [Bool.false_eq_true, if_false, true_and]
    constructor
    · rintro ⟨p, h⟩ v hv
      obtain ⟨plans, hplans, -⟩ := bind_eq_ok.mp h
      obtain ⟨q, -, hq⟩ := mapM_of_mem hplans hv
      exact volumePlan_isOk_iff.mp ⟨q, hq⟩
    · intro h
      obtain ⟨plans, hplans⟩ := mapM_isOk fun v hv => volumePlan_isOk_iff.mpr (h v hv)
      exact ⟨_, bind_eq_ok.mpr ⟨plans, hplans, rfl⟩⟩

/-- The operations of a volume, each with the state of its directory that calls for it. -/
inductive VolumeOp (i : Inputs) (v : Volume) (held : Option Mount) : Op → Prop where
  | createBind {path : Text} : v.kind = .bind path → held = none →
      VolumeOp i v held (.createBind v.dir path)
  | createDisk {storage : Option Text} {size : Size} {st : Text} : v.kind = .disk storage size →
      storage.or (i.config.storageFor i.node) = some st → held = none →
      VolumeOp i v held (.createDisk v.dir st size v.backup)
  | resize {storage : Option Text} {size : Size} {m : Mount} : v.kind = .disk storage size →
      held = some m → m.isBind = false → diskSizeSatisfied m.size size = false →
      VolumeOp i v held (.resize m.key v.dir (m.size.getD Size.zero) size)
  | setBackup {storage : Option Text} {size : Size} {m : Mount} : v.kind = .disk storage size →
      held = some m → m.isBind = false → m.backup ≠ v.backup →
      VolumeOp i v held (.setBackup m v.backup)

/-- **One inversion lemma for the operations of a volume.** -/
theorem volumeOp_of_mem {i : Inputs} {v : Volume} {held : Option Mount} {op : Op}
    (h : op ∈ volumeOps i v held) : VolumeOp i v held op := by
  unfold volumeOps at h
  split at h
  · exact absurd h List.not_mem_nil
  · rename_i path hk
    rw [List.mem_singleton] at h
    exact h ▸ .createBind hk rfl
  · exact absurd h List.not_mem_nil
  · rename_i storage size hk
    obtain ⟨st, hst, rfl⟩ := List.mem_map.mp h
    exact .createDisk hk (Option.mem_toList.mp hst) rfl
  · rename_i storage size m hk
    unfold diskOps at h
    split_ifs at h with hb hs hf hf
    · exact absurd h List.not_mem_nil
    · exact absurd h List.not_mem_nil
    · rw [List.nil_append, List.mem_singleton] at h
      exact h ▸ .setBackup hk rfl (Bool.not_eq_true _ ▸ hb) hf
    · rw [List.append_nil, List.mem_singleton] at h
      exact h ▸ .resize hk rfl (Bool.not_eq_true _ ▸ hb) (Bool.not_eq_true _ ▸ hs)
    · rw [List.singleton_append, List.mem_cons, List.mem_singleton] at h
      rcases h with rfl | rfl
      · exact .resize hk rfl (Bool.not_eq_true _ ▸ hb) (Bool.not_eq_true _ ▸ hs)
      · exact .setBackup hk rfl (Bool.not_eq_true _ ▸ hb) hf

/-- Every operation of a plan sets the features or a tag, or is some volume's. -/
theorem op_cases {i : Inputs} {op : Op} (h : op ∈ planOps i) :
    op = .setFeatures (featuresText (wantedFeatures i.guest.features)) ∨
      (∃ t, i.tag = some t ∧ op = .addTag t) ∨
      ∃ v ∈ i.volumes, VolumeOp i v (i.guest.mountAt v.dir) op := by
  unfold planOps at h
  rw [List.mem_append, List.mem_append] at h
  rcases h with (h | h) | h
  · unfold featureOps at h
    split_ifs at h with hw
    · exact .inl (List.mem_singleton.mp h)
    · exact absurd h List.not_mem_nil
  · unfold tagOps at h
    split at h
    · rename_i t ht
      split_ifs at h
      · exact absurd h List.not_mem_nil
      · exact .inr (.inl ⟨t, ht, List.mem_singleton.mp h⟩)
    · exact absurd h List.not_mem_nil
  · obtain ⟨v, hv, hop⟩ := List.mem_flatMap.mp h
    exact .inr (.inr ⟨v, hv, volumeOp_of_mem hop⟩)

/-! ### Executing -/

/-- One `pct` call on the guest: `set --<opt> <value>`, or `resize <disk> <size>`. -/
inductive Call where
  | set (opt value : Text)
  | resize (disk size : Text)
deriving DecidableEq

/-- `while used.contains(&next) { next += 1 }`. -/
def searchFree (used : List ℕ) : ℕ → ℕ → ℕ
  | 0, next => next
  | fuel + 1, next => if next ∈ used then searchFree used fuel (next + 1) else next

/-- The index `take_index` gives when its counter stands at `next`. -/
def takeIndex (used : List ℕ) (next : ℕ) : ℕ := searchFree used (used.length + 1) next

def mpKey (idx : ℕ) : Text := "mp" ++ dec idx

def flag (b : Bool) : Text := if b then "1" else "0"

def diskSpec (mp storage : Text) (size : Size) (backup : Bool) : Text :=
  storage ++ ":" ++ size.toPctGib ++ ",mp=" ++ mp ++ ",backup=" ++ flag backup

def bindSpec (mp path : Text) : Text := path ++ ",mp=" ++ mp

/-- The call of one operation, and where the counter stands after it. -/
def opCall (g : GuestConfig) (next : ℕ) : Op → Call × ℕ
  | .setFeatures s => (.set "features" s, next)
  | .addTag t => (.set "tags" (List.intercalate ";" (g.tags ++ [t])), next)
  | .createDisk mp storage size backup =>
    let idx := takeIndex g.usedIndexes next
    (.set (mpKey idx) (diskSpec mp storage size backup), idx + 1)
  | .createBind mp path =>
    let idx := takeIndex g.usedIndexes next
    (.set (mpKey idx) (bindSpec mp path), idx + 1)
  | .resize key _ _ new => (.resize key new.toPctResize, next)
  | .setBackup m backup => (.set m.key ({ m with backup := backup } : Mount).display, next)

def callsFrom (g : GuestConfig) : ℕ → List Op → List (Op × Call)
  | _, [] => []
  | next, op :: ops => (op, (opCall g next op).1) :: callsFrom g (opCall g next op).2 ops

/-- `execute`: the calls of a plan, each beside its operation. -/
def execute (g : GuestConfig) (p : Plan) : List (Op × Call) := callsFrom g g.freeMpIndex p.ops

theorem mem_callsFrom {g : GuestConfig} {next : ℕ} {ops : List Op} {oc : Op × Call}
    (h : oc ∈ callsFrom g next ops) : oc.1 ∈ ops ∧ ∃ n, oc.2 = (opCall g n oc.1).1 := by
  induction ops generalizing next with
  | nil => exact absurd h List.not_mem_nil
  | cons op ops ih =>
    rcases List.mem_cons.mp h with rfl | h
    · exact ⟨by simp, next, rfl⟩
    · exact ⟨List.mem_cons_of_mem _ (ih h).1, (ih h).2⟩

theorem comma_not_mem_flag (b : Bool) : ',' ∉ flag b := by cases b <;> decide

theorem diskSpec_eq (mp st : Text) (size : Size) (backup : Bool) :
    diskSpec mp st size backup = (st ++ ':' :: size.toPctGib) ++
      [Mount.optionText "mp" mp, Mount.optionText "backup" (flag backup)].flatMap
        fun o => ',' :: o := by
  simp [diskSpec, Mount.optionText]

theorem bindSpec_eq (mp path : Text) :
    bindSpec mp path = path ++ [Mount.optionText "mp" mp].flatMap fun o => ',' :: o := by
  simp [bindSpec, Mount.optionText]

/-- A created mount is at the directory it was created for, whatever the rest of its line says. -/
theorem mp_of_parse_bindSpec {key mp path : Text} {m : Mount} (hmp : ',' ∉ mp)
    (h : Mount.parse key (bindSpec mp path) = .ok m) : m.mp = some mp := by
  rw [bindSpec_eq] at h
  exact Mount.mp_of_parse hmp (by simp) (by simp) h

theorem mp_of_parse_diskSpec {key mp st : Text} {size : Size} {backup : Bool} {m : Mount}
    (hmp : ',' ∉ mp) (h : Mount.parse key (diskSpec mp st size backup) = .ok m) :
    m.mp = some mp := by
  rw [diskSpec_eq] at h
  refine Mount.mp_of_parse hmp (by simp [Mount.optionText, comma_not_mem_flag]) ?_ h
  intro o ho b b' hb
  obtain rfl := List.mem_singleton.mp ho
  rw [Mount.readOption_optionText (show '=' ∉ "backup".toList by decide)] at hb
  cases hb
  rfl

/-! ### The index search -/

/-- What a search of `fuel` steps finds, unless every index it passed was used. -/
theorem searchFree_spec (used : List ℕ) (fuel next : ℕ) :
    next ≤ searchFree used fuel next ∧
      (∀ j, next ≤ j → j < searchFree used fuel next → j ∈ used) ∧
      (searchFree used fuel next ∉ used ∨ searchFree used fuel next = next + fuel) := by
  induction fuel generalizing next with
  | zero => exact ⟨le_refl _, fun j h h' => absurd h' (by simp only [searchFree]; omega), .inr rfl⟩
  | succ fuel ih =>
    by_cases hused : next ∈ used
    · obtain ⟨hle, hall, hend⟩ := ih (next + 1)
      simp only [searchFree, if_pos hused]
      refine ⟨by omega, fun j hj hj' => ?_, hend.imp id fun h => by omega⟩
      rcases Nat.eq_or_lt_of_le hj with rfl | hlt
      · exact hused
      · exact hall j hlt hj'
    · simp only [searchFree, if_neg hused]
      exact ⟨le_refl _, fun j h h' => absurd h' (by omega), .inl hused⟩

/-- **The search ends at the first free index (proved)**: one more step than there are used
indexes is always enough. -/
theorem takeIndex_spec (used : List ℕ) (next : ℕ) :
    next ≤ takeIndex used next ∧ takeIndex used next ∉ used ∧
      ∀ j, next ≤ j → j < takeIndex used next → j ∈ used := by
  obtain ⟨hle, hall, hend⟩ := searchFree_spec used (used.length + 1) next
  refine ⟨hle, ?_, hall⟩
  rcases hend with h | h
  · exact h
  · exfalso
    have hsub : List.range' next (used.length + 1) ⊆ used := by
      intro j hj
      obtain ⟨h1, h2⟩ := List.mem_range'_1.mp hj
      exact hall j h1 (by omega)
    have hlen := List.Nodup.length_le_of_subset (by simp [List.nodup_range']) hsub
    simp at hlen

/-- Every index below the first counter is used. -/
theorem mem_usedIndexes_of_lt {g : GuestConfig} {j : ℕ} (h : j < g.freeMpIndex) :
    j ∈ g.usedIndexes := by
  unfold GuestConfig.freeMpIndex at h
  cases hf : (List.range 256).find? fun i => decide (i ∉ g.usedIndexes) with
  | none =>
    rw [hf] at h
    simpa using List.find?_eq_none.mp hf j (List.mem_range.mpr (by simpa using h))
  | some i =>
    rw [hf] at h
    obtain ⟨-, as, bs, has, hbefore⟩ := List.find?_eq_some_iff_append.mp hf
    have hj : j ∈ as := by
      have hi : i = as.length := by
        have hget := congrArg (·[as.length]?) has
        simp only [List.getElem?_append_right (le_refl _), Nat.sub_self,
          List.getElem?_cons_zero] at hget
        have hlt : as.length < 256 := by
          have := congrArg List.length has
          simp at this
          omega
        rw [List.getElem?_range hlt] at hget
        exact (Option.some.inj hget).symm
      have hjlt : j < as.length := by
        rw [← hi]
        simpa using h
      have hget := congrArg (·[j]?) has
      rw [List.getElem?_append_left hjlt, List.getElem?_range (by
        have := congrArg List.length has
        simp at this
        omega)] at hget
      exact List.mem_of_getElem? hget.symm
    simpa using hbefore j hj

end PveCompose
