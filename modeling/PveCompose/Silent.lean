import PveCompose.Plan

/-!
# A plan that says nothing (`plan.rs`)

What a guest is when `build` has no operation and no note for it: the plan adds what is missing and
reports what differs, so silence should mean that the guest is what its document asks for.

* `silent_volume` — **PROVED, one lemma for the three kinds**: a volume without an operation and
  without a note has at its directory exactly what it asks for (`Held`);
* `silent_iff` — **PROVED**: a silent plan leaves the guest as asked exactly when neither of the two
  features docker needs is set to another value than `1`.  Every other difference is an operation or
  a note.
-/

namespace PveCompose

open Words

/-- A size within 1 MiB of the one asked. -/
def NearSize (size : Size) (held : Option Size) : Prop :=
  ∃ h, held = some h ∧ size.bytes ≤ h.bytes + 2 ^ 20 ∧ h.bytes ≤ size.bytes + 2 ^ 20

/-- What a volume asks for is what the mounts of the guest hold at its directory. -/
def Held (i : Inputs) (v : Volume) : Prop :=
  match v.kind with
  | .plain => ∀ m ∈ i.guest.mounts, m.mp ≠ some v.dir
  | .bind path => ∃ m ∈ i.guest.mounts, m.mp = some v.dir ∧ m.isBind = true ∧ m.volume = path
  | .disk storage size => ∃ m ∈ i.guest.mounts, m.mp = some v.dir ∧ m.isBind = false ∧
      m.storage = storage.or (i.config.storageFor i.node) ∧ NearSize size m.size ∧
      m.backup = v.backup

/-- The guest is what the document asks for. -/
structure AsDocument (i : Inputs) : Prop where
  features : i.guest.features["nesting".toList]? = some "1".toList ∧
    i.guest.features["keyctl".toList]? = some "1".toList
  tag : ∀ t ∈ i.tag, i.guest.hasTag t = true
  volumes : ∀ v ∈ i.volumes, Held i v
  orphans : ∀ m ∈ i.guest.mounts, ∀ p ∈ m.mp, VOLUMES_DIR ++ ['/'] <+: p →
    ∃ v ∈ i.volumes, p = v.dir

/-- Neither of the two features is set to another value than the one docker needs. -/
def NoOtherFeature (g : GuestConfig) : Prop :=
  (∀ v ∈ g.features["nesting".toList]?, v = "1") ∧ ∀ v ∈ g.features["keyctl".toList]?, v = "1"

variable {i : Inputs} {v : Volume} {path : Text} {m : Mount}

/-- No operation and no note: the mount is a disk as asked. -/
theorem silent_mountedDisk {storage : Text} {size : Size}
    (h : mountedDiskPlan v storage size m = ⟨[], []⟩) :
    m.isBind = false ∧ m.storage = some storage ∧ NearSize size m.size ∧ m.backup = v.backup := by
  unfold mountedDiskPlan at h
  split_ifs at h with hbind hsat hbackup hbackup
  all_goals
    simp only [Plan.mk.injEq, List.cons_ne_nil, List.append_eq_nil_iff, and_false, false_and] at h
  obtain ⟨-, hstorage, hshrink⟩ := h
  have hdisk : m.isBind = false := (Bool.not_eq_true _).mp hbind
  refine ⟨hdisk, ?_, ?_, hbackup⟩
  · obtain ⟨st, hst⟩ : ∃ st, m.storage = some st := by
      rw [Mount.storage, if_neg hbind]
      exact ⟨_, List.head?_eq_some_head (List.splitOn_ne_nil _ _)⟩
    rw [hst] at hstorage ⊢
    dsimp only at hstorage
    split_ifs at hstorage with heq
    rw [heq]
  · cases hsize : m.size with
    | none =>
      rw [hsize] at hsat
      exact absurd hsat Bool.false_ne_true
    | some held =>
      rw [hsize] at hsat hshrink
      dsimp only at hshrink
      split_ifs at hshrink with hlarge
      have hsat' : size.bytes ≤ (held.bytes + 2 ^ 20) % 2 ^ 64 := of_decide_eq_true hsat
      have hmod := Nat.mod_le (held.bytes + 2 ^ 20) (2 ^ 64)
      have hmod' := Nat.mod_le (size.bytes + 2 ^ 20) (2 ^ 64)
      exact ⟨held, rfl, by omega, by omega⟩

/-- **A volume without an operation and a note holds what it asks for (proved).** -/
theorem silent_volume (h : volumePlan i v = .ok ⟨[], []⟩) : Held i v := by
  unfold volumePlan at h
  unfold Held
  cases hk : v.kind with
  | plain =>
    rw [hk] at h
    cases hm : i.guest.mountAt v.dir with
    | none => exact mountAt_eq_none_iff.mp hm
    | some m =>
      rw [hm] at h
      cases h
  | bind path =>
    rw [hk] at h
    cases hm : i.guest.mountAt v.dir with
    | none =>
      rw [hm] at h
      cases h
    | some m =>
      rw [hm] at h
      dsimp only at h
      split_ifs at h with hbind hvolume
      · cases h
      · obtain ⟨hmem, hmp⟩ := mountAt_eq_some hm
        exact ⟨m, hmem, hmp, hbind, not_not.mp hvolume⟩
      · cases h
  | disk storage size =>
    rw [hk] at h
    dsimp only at h
    cases hst : storage.or (i.config.storageFor i.node) with
    | none =>
      rw [hst] at h
      exact absurd h bail_ne_ok
    | some st =>
      rw [hst] at h
      cases hm : i.guest.mountAt v.dir with
      | none =>
        rw [hm] at h
        cases h
      | some m =>
        rw [hm] at h
        obtain ⟨hmem, hmp⟩ := mountAt_eq_some hm
        obtain ⟨hbind, hstorage, hsize, hbackup⟩ := silent_mountedDisk (Except.ok.inj h)
        exact ⟨m, hmem, hmp, hbind, hstorage.trans hst.symm, hsize, hbackup⟩

/-- No orphan is noted: what is mounted below the directory belongs to a volume. -/
theorem silent_orphans (h : orphanNotes i = []) : ∀ m ∈ i.guest.mounts, ∀ p ∈ m.mp,
    VOLUMES_DIR ++ ['/'] <+: p → ∃ v ∈ i.volumes, p = v.dir := by
  rintro m hm p hp ⟨name, rfl⟩
  have hnone := List.filterMap_eq_nil_iff.mp h m hm
  have hdrop : (VOLUMES_DIR ++ ['/'] ++ name).dropPrefix? (VOLUMES_DIR ++ "/".toList) = some name :=
    List.dropPrefix?_append_of_beq _ (by simp)
  rw [Option.mem_def.mp hp, Option.bind_some, hdrop, Option.bind_some] at hnone
  split_ifs at hnone with hany
  obtain ⟨v, hv, hname⟩ := List.any_eq_true.mp hany
  obtain rfl : v.name = name := of_decide_eq_true hname
  exact ⟨v, hv, by simp [Volume.dir]⟩

/-- Features that need no change hold the two docker needs. -/
theorem features_of_wanted {features : TextMap} (h : wantedFeatures features = features) :
    (∃ v, features["nesting".toList]? = some v) ∧ ∃ v, features["keyctl".toList]? = some v := by
  constructor
  · rw [← h, wantedFeatures, Std.ExtTreeMap.getElem?_insertIfNew, Std.ExtTreeMap.getElem?_insertIfNew]
    split_ifs <;> simp_all
  · rw [← h, wantedFeatures, Std.ExtTreeMap.getElem?_insertIfNew]
    split_ifs <;> simp_all

/-- **Silence means converged (proved)**, but for a feature set to another value. -/
theorem silent_iff (h : build i = .ok ⟨[], []⟩) : AsDocument i ↔ NoOtherFeature i.guest := by
  unfold build at h
  split_ifs at h with htemplate
  · exact absurd h bail_ne_ok
  obtain ⟨plans, hplans, h⟩ := bind_eq_ok.mp h
  have hops := congrArg Plan.ops (Except.ok.inj h)
  have hnotes := congrArg Plan.notes (Except.ok.inj h)
  simp only [List.append_eq_nil_iff, List.flatMap_eq_nil_iff] at hops hnotes
  obtain ⟨⟨hfeatures, htag⟩, hops⟩ := hops
  obtain ⟨⟨-, hnotes⟩, horphans⟩ := hnotes
  have hwanted : wantedFeatures i.guest.features = i.guest.features := by
    by_contra hne
    rw [featureOps, if_pos hne] at hfeatures
    cases hfeatures
  obtain ⟨⟨nesting, hnesting⟩, keyctl, hkeyctl⟩ := features_of_wanted hwanted
  constructor
  · intro hdoc
    obtain ⟨hn, hk⟩ := hdoc.features
    exact ⟨fun v hv => Option.some.inj (hv.symm.trans hn), fun v hv => Option.some.inj (hv.symm.trans hk)⟩
  · rintro ⟨hn, hk⟩
    refine ⟨⟨?_, ?_⟩, fun t ht => ?_, fun v hv => ?_, silent_orphans horphans⟩
    · rw [hnesting, hn nesting hnesting]
    · rw [hkeyctl, hk keyctl hkeyctl]
    · by_contra hno
      unfold tagOps at htag
      rw [Option.mem_def.mp ht] at htag
      dsimp only at htag
      rw [if_neg hno] at htag
      cases htag
    · obtain ⟨p, hp, hplan⟩ := mapM_of_mem hplans hv
      obtain ⟨ops, notes⟩ := p
      obtain rfl : ops = [] := hops _ hp
      obtain rfl : notes = [] := hnotes _ hp
      exact silent_volume hplan

/-- A guest with its tag, a disk a mebibyte below the size asked, a bind and a plain volume. -/
def settledInputs : Inputs where
  node := "pve"
  config := Config.default
  tag := some "compose"
  guest := { emptyConfig 105 with
    unprivileged := true
    features := parseFeatures "nesting=1,keyctl=1"
    tags := ["compose"]
    mounts :=
      [{ key := "mp0", volume := "local-lvm:vm-105-disk-1", mp := some "/opt/stack/volumes/data"
         size := some (Size.saturate (8191 * 2 ^ 20)), backup := true, other := ∅ },
        { key := "mp1", volume := "/srv/media", mp := some "/opt/stack/volumes/media", size := none
          backup := false, other := ∅ }] }
  volumes := [⟨"data", .disk (some "local-lvm") (Size.saturate (8 * 2 ^ 30)), none, true⟩,
    ⟨"media", .bind "/srv/media", none, true⟩, ⟨"cache", .plain, none, true⟩]

theorem silent_settled : AsDocument settledInputs :=
  (silent_iff (by decide)).mpr ⟨by decide, by decide⟩

/-- A guest whose features are as `nesting` says, and a document without volumes. -/
def quietInputs (nesting : Text) : Inputs where
  node := "pve"
  config := Config.default
  tag := none
  guest := { emptyConfig 105 with
    unprivileged := true, features := parseFeatures ("nesting=" ++ nesting ++ ",keyctl=1") }
  volumes := []

/-- **`nesting=0`** is no operation and no note, and is not what docker needs. -/
theorem silent_without_nesting :
    build (quietInputs "0") = .ok ⟨[], []⟩ ∧ ¬ AsDocument (quietInputs "0") := by
  have hbuild : build (quietInputs "0") = .ok ⟨[], []⟩ := by decide
  refine ⟨hbuild, fun h => ?_⟩
  have hother := ((silent_iff hbuild).mp h).1 "0" (by decide)
  exact absurd hother (by decide)

end PveCompose
