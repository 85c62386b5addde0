import PveCompose.Spec

/-!
# The order of the limits (`spec.rs`)

A document is held against the limits of its node: lists of bind roots and of storages, in the
order an operator wrote them.  The scan over the roots validates each root it passes and stops at
the first one that holds the path.

* `volumes_iff_checked` — **PROVED**: the limits judge the volumes of a document and nothing else of it;
* `volumes_congr` — **PROVED**: limits that judge every path and every storage alike give every
  document the same verdict and the same volumes;
* `checkBindPath_iff_of_clean` — **PROVED**: among clean roots the scan finds the path under any of
  them, wherever it stands;
* `order_iff` — **PROVED**: the verdict on every document is the same for every order of the limits
  exactly when the roots listed are all clean or none is;
* `document_order_iff` — **PROVED**: the verdict on one document is, exactly when the roots are all clean
  or it has no bind that any order accepts.
-/

namespace PveCompose

/-- The same limits in another order. -/
structure Reordered (limits limits' : Limits) : Prop where
  bindRoots : limits'.bindRoots.Perm limits.bindRoots
  storages : limits'.storages.Perm limits.storages
  maxDiskGib : limits'.maxDiskGib = limits.maxDiskGib

/-- Limits that judge every path, every storage and every size alike. -/
structure JudgeAlike (limits limits' : Limits) : Prop where
  path : ∀ name path, checkBindPath name path limits = .ok () ↔ checkBindPath name path limits' = .ok ()
  storage : ∀ s, s ∈ limits.storages ↔ s ∈ limits'.storages
  maxDiskGib : limits.maxDiskGib = limits'.maxDiskGib

/-! ### What the verdict depends on -/

/-- What of a volume is held against the limits. -/
def Checked (limits : Limits) (name : Text) : Kind → Prop
  | .bind path => checkBindPath name path limits = .ok ()
  | .disk storage size => checkSize name size limits = .ok () ∧ ∀ s ∈ storage, s ∈ limits.storages
  | .plain => True

section Checked

variable {limits limits' : Limits} {name : Text}

theorem checkStorage_iff {s : Text} : checkStorage name s limits = .ok () ↔ s ∈ limits.storages := by
  constructor
  · exact checkStorage_ok
  · intro h
    rw [checkStorage, if_pos h]

/-- Two sequences that begin alike. -/
theorem bind_iff_of_ok {α β : Type} {r : Result α} {f f' : α → Result β} {b : β} {Q : Prop}
    (h : (r >>= f) = .ok b) (hf : ∀ a, f a = .ok b → (f' a = .ok b ↔ Q)) : (r >>= f') = .ok b ↔ Q := by
  obtain ⟨a, rfl, hb⟩ := bind_eq_ok.mp h
  exact hf a hb

theorem mapM_iff_of_ok {α β : Type} {f f' : α → Result β} {Q : β → Prop} {xs : List α} {ys : List β}
    (h : xs.mapM f = .ok ys) (hf : ∀ x y, f x = .ok y → (f' x = .ok y ↔ Q y)) :
    xs.mapM f' = .ok ys ↔ ∀ y ∈ ys, Q y := by
  induction xs generalizing ys with
  | nil =>
    cases h
    exact iff_of_true rfl nofun
  | cons x xs ih =>
    rw [List.mapM_cons] at h
    obtain ⟨y, hy, h⟩ := bind_eq_ok.mp h
    obtain ⟨ys', hys', h⟩ := bind_eq_ok.mp h
    cases h
    rw [List.mapM_cons, List.forall_mem_cons, ← hf x y hy, ← ih hys']
    constructor
    · intro h'
      obtain ⟨y', hy', h'⟩ := bind_eq_ok.mp h'
      obtain ⟨ys'', hys'', h'⟩ := bind_eq_ok.mp h'
      cases h'
      exact ⟨hy', hys''⟩
    · rintro ⟨hy', hys''⟩
      rw [hy', hys'']
      rfl

theorem classify_iff_checked {x : XPve} {kind : Kind} (h : classify name x limits = .ok kind) :
    classify name x limits' = .ok kind ↔ Checked limits' name kind := by
  obtain ⟨storage, size, path, owner, backup⟩ := x
  cases path with
  | some p =>
    cases storage with
    | some s => exact absurd h bail_ne_ok
    | none =>
      cases size with
      | some size => exact absurd h bail_ne_ok
      | none =>
        unfold classify at h ⊢
        dsimp only at h ⊢
        split_ifs at h ⊢
        · exact absurd h bail_ne_ok
        · obtain ⟨_, -, h⟩ := bind_eq_ok.mp h
          cases h
          show (checkBindPath name p limits' >>= fun _ => .ok (Kind.bind p)) = .ok (Kind.bind p) ↔ _
          exact ⟨fun h' => (bind_eq_ok.mp h').choose_spec.1, fun h' => bind_eq_ok.mpr ⟨(), h', rfl⟩⟩
  | none =>
    cases size with
    | some size =>
      obtain ⟨_, -, h⟩ := bind_eq_ok.mp h
      obtain ⟨_, -, h⟩ := bind_eq_ok.mp h
      cases h
      have hstorage : (storage.toList.forM fun s => checkStorage name s limits') = .ok ()
          ↔ ∀ s ∈ storage, s ∈ limits'.storages := by
        rw [forM_eq_ok_iff]
        simp only [Option.mem_toList, checkStorage_iff, Option.mem_def]
      constructor
      · intro h'
        obtain ⟨_, hsize, h'⟩ := bind_eq_ok.mp h'
        obtain ⟨_, hst, -⟩ := bind_eq_ok.mp h'
        exact ⟨hsize, hstorage.mp hst⟩
      · rintro ⟨hsize, hst⟩
        exact bind_eq_ok.mpr ⟨(), hsize, bind_eq_ok.mpr ⟨(), hstorage.mpr hst, rfl⟩⟩
    | none =>
      cases storage with
      | some s => exact absurd h bail_ne_ok
      | none =>
        cases h
        exact iff_of_true rfl trivial

theorem readVolume_iff_checked {d : Value} {v : Volume} (h : readVolume limits name d = .ok v) :
    readVolume limits' name d = .ok v ↔ Checked limits' v.name v.kind := by
  refine bind_iff_of_ok h fun ox h => ?_
  cases ox with
  | none =>
    cases h
    exact iff_of_true rfl trivial
  | some x =>
    refine bind_iff_of_ok h fun _ h => ?_
    obtain ⟨kind, hkind, h⟩ := bind_eq_ok.mp h
    cases h
    rw [← classify_iff_checked hkind]
    constructor
    · intro h'
      obtain ⟨kind', hkind', h'⟩ := bind_eq_ok.mp h'
      cases h'
      exact hkind'
    · intro h'
      exact bind_eq_ok.mpr ⟨kind, h', rfl⟩

theorem readEntry_iff_checked (e : Value × Value) (ov : Option Volume)
    (h : readEntry limits e = .ok ov) :
    readEntry limits' e = .ok ov ↔ ∀ v ∈ ov, Checked limits' v.name v.kind := by
  have hsome {name : Text} (h : (readVolume limits name e.2 >>= fun v => .ok (some v)) = .ok ov) :
      (readVolume limits' name e.2 >>= fun v => .ok (some v)) = .ok ov ↔
        ∀ v ∈ ov, Checked limits' v.name v.kind := by
    obtain ⟨v, hv, h⟩ := bind_eq_ok.mp h
    cases h
    have hiff : (∀ w ∈ some v, Checked limits' w.name w.kind) ↔ Checked limits' v.name v.kind := by simp
    rw [hiff, ← readVolume_iff_checked hv]
    constructor
    · intro h'
      obtain ⟨v', hv', h'⟩ := bind_eq_ok.mp h'
      cases h'
      exact hv'
    · intro h'
      exact bind_eq_ok.mpr ⟨v, h', rfl⟩
  unfold readEntry at h ⊢
  split at h
  · exact absurd h bail_ne_ok
  split_ifs at h ⊢ with hname hexternal
  · split at h
    · cases h
      exact iff_of_true rfl nofun
    · cases h
      exact iff_of_true rfl nofun
    · exact absurd h bail_ne_ok
  · split at h
    · exact hsome h
    · exact hsome h
    · exact absurd h bail_ne_ok
  · exact absurd h bail_ne_ok

/-- **The limits judge the volumes, and nothing else (proved)**: what some limits accept, others do when
they admit each of its volumes. -/
theorem volumes_iff_checked {spec : Value} {vs : List Volume} (h : volumes spec limits = .ok vs) :
    volumes spec limits' = .ok vs ↔ ∀ v ∈ vs, Checked limits' v.name v.kind := by
  unfold volumes at h ⊢
  split at h
  · cases h
    exact iff_of_true rfl nofun
  split_ifs at h ⊢
  · cases h
    exact iff_of_true rfl nofun
  split at h
  · exact absurd h bail_ne_ok
  · obtain ⟨read, hread, h⟩ := bind_eq_ok.mp h
    cases h
    have hmem (read : List (Option Volume)) : (∀ v ∈ read.filterMap id, Checked limits' v.name v.kind) ↔
        ∀ ov ∈ read, ∀ v ∈ ov, Checked limits' v.name v.kind := by
      simp only [List.mem_filterMap, id, Option.mem_def]
      exact ⟨fun h ov hov v hv => h v ⟨ov, hov, hv⟩, fun h v ⟨ov, hov, hv⟩ => h ov hov v hv⟩
    constructor
    · intro h'
      obtain ⟨read', hread', h'⟩ := bind_eq_ok.mp h'
      rw [← Except.ok.inj h', hmem]
      exact (mapM_iff_of_ok hread' readEntry_iff_checked).mp hread'
    · intro h'
      have hread' := (mapM_iff_of_ok hread readEntry_iff_checked).mpr ((hmem read).mp h')
      exact bind_eq_ok.mpr ⟨read, hread', rfl⟩

/-- What is accepted was checked. -/
theorem checked_of_volumes {spec : Value} {vs : List Volume} (h : volumes spec limits = .ok vs) :
    ∀ v ∈ vs, Checked limits v.name v.kind :=
  (volumes_iff_checked h).mp h

theorem Checked.alike (h : JudgeAlike limits limits') {kind : Kind} (hk : Checked limits name kind) :
    Checked limits' name kind := by
  cases kind with
  | bind path => exact (h.path name path).mp hk
  | disk storage size =>
    refine ⟨?_, fun s hs => (h.storage s).mp (hk.2 s hs)⟩
    rw [checkSize, ceiling, ← h.maxDiskGib]
    exact hk.1
  | plain => trivial

theorem JudgeAlike.symm (h : JudgeAlike limits limits') : JudgeAlike limits' limits :=
  ⟨fun name path => (h.path name path).symm, fun s => (h.storage s).symm, h.maxDiskGib.symm⟩

/-- **The verdict is the paths', the storages' and the sizes' (proved).** -/
theorem volumes_congr (h : JudgeAlike limits limits') {spec : Value} {vs : List Volume} :
    volumes spec limits = .ok vs ↔ volumes spec limits' = .ok vs := by
  constructor
  · intro hvs
    exact (volumes_iff_checked hvs).mpr fun v hv => (checked_of_volumes hvs v hv).alike h
  · intro hvs
    exact (volumes_iff_checked hvs).mpr fun v hv => (checked_of_volumes hvs v hv).alike h.symm

end Checked

/-! ### The scan over the roots -/

/-- A scan that meets a root that is not clean fails there. -/
theorem underSome_of_not_clean {path root : Text} {roots : List Text} (h : ¬ CleanAbsolute root)
    {b : Bool} : underSome path (root :: roots) ≠ .ok b := by
  intro hok
  obtain ⟨_, hclean, -⟩ := bind_eq_ok.mp hok
  exact h (checkCleanAbsolute_eq_ok_iff.mp (withContext_eq_ok.mp hclean))

theorem underSome_cons_of_clean {path root : Text} {roots : List Text} (h : CleanAbsolute root) :
    underSome path (root :: roots) = if under root path then .ok true else underSome path roots := by
  rw [underSome, checkCleanAbsolute_eq_ok_iff.mpr h]
  rfl

/-- The scan passes the clean roots at the front that do not hold the path. -/
theorem underSome_append_of_clean {path : Text} {roots rest : List Text}
    (h : ∀ root ∈ roots, CleanAbsolute root) :
    underSome path (roots ++ rest) = if roots.any (fun root => under root path) then .ok true
      else underSome path rest := by
  induction roots with
  | nil => rfl
  | cons root roots ih =>
    rw [List.cons_append, underSome_cons_of_clean (h root List.mem_cons_self), List.any_cons,
      ih fun r hr => h r (List.mem_cons_of_mem _ hr)]
    cases under root path <;> rfl

/-- What is accepted is clean, and under a clean root of the list. -/
theorem held_of_checkBindPath {name path : Text} {limits : Limits}
    (h : checkBindPath name path limits = .ok ()) :
    CleanAbsolute path ∧ ∃ root ∈ limits.bindRoots, CleanAbsolute root ∧ under root path = true := by
  obtain ⟨hpath, root, hmem, hroot, hunder⟩ := checkBindPath_ok h
  exact ⟨hpath, root, hmem, hroot, (under_iff_segments hroot hpath).mpr hunder⟩

/-- A clean path is accepted, when the scan begins with clean roots of which one holds it. -/
theorem checkBindPath_of_front {name path : Text} {roots rest : List Text} {limits : Limits}
    (hroots : limits.bindRoots = roots ++ rest) (hclean : ∀ root ∈ roots, CleanAbsolute root)
    (hpath : CleanAbsolute path) (h : ∃ root ∈ roots, under root path = true) :
    checkBindPath name path limits = .ok () := by
  have hany : (roots.any fun root => under root path) = true := List.any_eq_true.mpr h
  obtain ⟨root, hmem, -⟩ := h
  have hne : limits.bindRoots ≠ [] := by
    rw [hroots]
    exact List.ne_nil_of_mem (List.mem_append_left rest hmem)
  rw [checkBindPath, checkCleanAbsolute_eq_ok_iff.mpr hpath]
  show (if limits.bindRoots = [] then _ else _) = _
  rw [if_neg hne, hroots, underSome_append_of_clean hclean, if_pos hany]
  rfl

/-- **Among clean roots the order does not matter (proved).** -/
theorem checkBindPath_iff_of_clean {name path : Text} {limits : Limits}
    (h : ∀ root ∈ limits.bindRoots, CleanAbsolute root) :
    checkBindPath name path limits = .ok () ↔
      CleanAbsolute path ∧ ∃ root ∈ limits.bindRoots, under root path = true := by
  constructor
  · intro hok
    obtain ⟨hpath, root, hmem, -, hunder⟩ := held_of_checkBindPath hok
    exact ⟨hpath, root, hmem, hunder⟩
  · rintro ⟨hpath, hunder⟩
    exact checkBindPath_of_front (List.append_nil _).symm h hpath hunder

/-- Every path is refused, when the scan begins with a root that is not clean. -/
theorem checkBindPath_malformed {name path root : Text} {roots : List Text} {limits : Limits}
    (h : ¬ CleanAbsolute root) (hroots : limits.bindRoots = root :: roots) :
    checkBindPath name path limits ≠ .ok () := by
  intro hok
  obtain ⟨_, -, hok⟩ := bind_eq_ok.mp hok
  split_ifs at hok with hnone
  · exact absurd hok bail_ne_ok
  · obtain ⟨b, hb, -⟩ := bind_eq_ok.mp hok
    rw [hroots] at hb
    exact underSome_of_not_clean h hb

/-- Without a clean root every path is refused. -/
theorem checkBindPath_of_none_clean {name path : Text} {limits : Limits}
    (h : ∀ root ∈ limits.bindRoots, ¬ CleanAbsolute root) :
    checkBindPath name path limits ≠ .ok () := by
  cases hroots : limits.bindRoots with
  | nil =>
    intro hok
    obtain ⟨_, -, hok⟩ := bind_eq_ok.mp hok
    rw [if_pos hroots] at hok
    exact absurd hok bail_ne_ok
  | cons root roots =>
    rw [hroots] at h
    exact checkBindPath_malformed (h root List.mem_cons_self) hroots

/-! ### The order -/

/-- The roots listed are all clean absolute paths, or none of them is. -/
def Uniform (limits : Limits) : Prop :=
  (∀ root ∈ limits.bindRoots, CleanAbsolute root) ∨ ∀ root ∈ limits.bindRoots, ¬ CleanAbsolute root

theorem judgeAlike_of_uniform {limits limits' : Limits} (hu : Uniform limits)
    (h : Reordered limits limits') : JudgeAlike limits limits' := by
  have hmem : ∀ root, root ∈ limits'.bindRoots ↔ root ∈ limits.bindRoots := fun _ => h.bindRoots.mem_iff
  refine ⟨fun name path => ?_, fun s => h.storages.mem_iff.symm, h.maxDiskGib.symm⟩
  rcases hu with hclean | hnone
  · rw [checkBindPath_iff_of_clean hclean,
      checkBindPath_iff_of_clean fun root hr => hclean root ((hmem root).mp hr)]
    simp only [hmem]
  · exact iff_of_false (checkBindPath_of_none_clean hnone)
      (checkBindPath_of_none_clean fun root hr => hnone root ((hmem root).mp hr))

/-- A document with one bind mount. -/
def bindSpecOf (path : Text) : Value :=
  .mapping [(.string "volumes", .mapping [(.string "data", .mapping [(.string "x-pve",
    .mapping [(.string "path", .string path)])])])]

def bindVolumeOf (path : Text) : Volume :=
  { name := "data", kind := .bind path, owner := none, backup := true }

theorem volumes_bindSpecOf (path : Text) (limits : Limits) :
    volumes (bindSpecOf path) limits = .ok [bindVolumeOf path] ↔
      checkBindPath "data" path limits = .ok () := by
  let x : XPve := { XPve.empty with path := some path }
  let e : Value × Value := (.string "data", .mapping [(.string "x-pve",
    .mapping [(.string "path", .string path)])])
  have hclassify : classify "data" x limits
      = checkBindPath "data" path limits >>= fun _ => .ok (.bind path) := rfl
  have hentry : readEntry limits e = (classify "data" x limits >>= fun kind =>
      .ok { bindVolumeOf path with kind := kind }) >>= fun v => .ok (some v) := rfl
  have hvolumes : volumes (bindSpecOf path) limits
      = [e].mapM (readEntry limits) >>= fun read => .ok (read.filterMap id) := rfl
  rw [hvolumes, List.mapM_cons, List.mapM_nil, hentry, hclassify]
  cases checkBindPath "data" path limits with
  | ok _ => exact iff_of_true rfl rfl
  | error err => exact iff_of_false nofun nofun

/-- A root is itself a path under it, when the scan begins with it. -/
theorem checkBindPath_first {name root : Text} {roots : List Text} {limits : Limits}
    (h : CleanAbsolute root) (hroots : limits.bindRoots = root :: roots) :
    checkBindPath name root limits = .ok () := by
  have hunder : under root root = true := by simp [under]
  have hfront : limits.bindRoots = [root] ++ roots := hroots
  refine checkBindPath_of_front hfront (fun r hr => ?_) h ⟨root, by simp, hunder⟩
  rw [List.mem_singleton.mp hr]
  exact h

/-- The limits with one of their roots first. -/
def rootFirst (root : Text) (limits : Limits) : Limits :=
  { limits with bindRoots := root :: limits.bindRoots.erase root }

theorem reordered_rootFirst {root : Text} {limits : Limits} (h : root ∈ limits.bindRoots) :
    Reordered limits (rootFirst root limits) :=
  ⟨(List.perm_cons_erase h).symm, .refl _, rfl⟩

/-- **The order of the limits (proved).** -/
theorem order_iff (limits : Limits) :
    ((∀ limits', Reordered limits limits' → ∀ spec vs,
        volumes spec limits = .ok vs ↔ volumes spec limits' = .ok vs) ∧
      ∀ name path root, CleanAbsolute path → CleanAbsolute root → root ∈ limits.bindRoots →
        under root path = true → checkBindPath name path limits = .ok ()) ↔ Uniform limits := by
  constructor
  · rintro ⟨horder, -⟩
    by_contra hmixed
    simp only [Uniform, not_or, not_forall, not_not] at hmixed
    obtain ⟨⟨bad, hbad, hnot⟩, good, hgood, hclean⟩ := hmixed
    -- a bind of the clean root: accepted with that root first, refused with the other
    have haccepts := (horder _ (reordered_rootFirst hgood) (bindSpecOf good) [bindVolumeOf good]).mpr
      ((volumes_bindSpecOf good _).mpr (checkBindPath_first hclean rfl))
    have hrefuses := (horder _ (reordered_rootFirst hbad) (bindSpecOf good) [bindVolumeOf good]).mp haccepts
    exact checkBindPath_malformed hnot rfl ((volumes_bindSpecOf good _).mp hrefuses)
  · intro hu
    refine ⟨fun limits' h spec vs => volumes_congr (judgeAlike_of_uniform hu h), ?_⟩
    intro name path root hpath hroot hmem hunder
    rcases hu with hall | hnone
    · exact (checkBindPath_iff_of_clean hall).mpr ⟨hpath, root, hmem, hunder⟩
    · exact absurd hroot (hnone root hmem)

/-! ### One document -/

/-- The limits with their clean roots first. -/
def cleanFirst (limits : Limits) : Limits :=
  { limits with bindRoots := limits.bindRoots.filter (fun root => (checkCleanAbsolute root).isOk)
      ++ limits.bindRoots.filter fun root => !(checkCleanAbsolute root).isOk }

theorem reordered_cleanFirst (limits : Limits) : Reordered limits (cleanFirst limits) :=
  ⟨List.filter_append_perm _ _, .refl _, rfl⟩

theorem isOk_checkCleanAbsolute {root : Text} :
    (checkCleanAbsolute root).isOk = true ↔ CleanAbsolute root := by
  rw [← checkCleanAbsolute_eq_ok_iff]
  cases checkCleanAbsolute root with
  | ok u => exact iff_of_true rfl rfl
  | error e => exact iff_of_false nofun nofun

/-- **With the clean roots first the most is accepted (proved)**: whatever any order accepts. -/
theorem checked_cleanFirst {limits limits' : Limits} (h : Reordered limits limits') {name : Text}
    {kind : Kind} (hk : Checked limits' name kind) : Checked (cleanFirst limits) name kind := by
  cases kind with
  | bind path =>
    obtain ⟨hpath, root, hmem, hclean, hunder⟩ := held_of_checkBindPath hk
    refine checkBindPath_of_front rfl (fun r hr => ?_) hpath ⟨root, ?_, hunder⟩
    · exact isOk_checkCleanAbsolute.mp (List.mem_filter.mp hr).2
    · exact List.mem_filter.mpr ⟨h.bindRoots.mem_iff.mp hmem, isOk_checkCleanAbsolute.mpr hclean⟩
  | disk storage size =>
    refine ⟨?_, fun s hs => h.storages.mem_iff.mp (hk.2 s hs)⟩
    rw [checkSize, ceiling, show (cleanFirst limits).maxDiskGib = limits'.maxDiskGib from h.maxDiskGib.symm]
    exact hk.1
  | plain => trivial

/-- Without a bind the order of the roots is nothing. -/
theorem checked_of_not_bind {limits limits' : Limits} (h : Reordered limits limits') {name : Text}
    {kind : Kind} (hbind : ∀ path, kind ≠ .bind path) (hk : Checked limits name kind) :
    Checked limits' name kind := by
  cases kind with
  | bind path => exact absurd rfl (hbind path)
  | disk storage size =>
    refine ⟨?_, fun s hs => h.storages.mem_iff.mpr (hk.2 s hs)⟩
    rw [checkSize, ceiling, h.maxDiskGib]
    exact hk.1
  | plain => trivial

theorem Reordered.symm {limits limits' : Limits} (h : Reordered limits limits') : Reordered limits' limits :=
  ⟨h.bindRoots.symm, h.storages.symm, h.maxDiskGib.symm⟩

/-- **The order of the limits, for one document (proved).** -/
theorem document_order_iff (limits : Limits) (spec : Value) :
    (∀ limits', Reordered limits limits' → ∀ vs,
        volumes spec limits = .ok vs ↔ volumes spec limits' = .ok vs) ↔
      (∀ root ∈ limits.bindRoots, CleanAbsolute root) ∨
        ∀ vs, volumes spec (cleanFirst limits) = .ok vs → ∀ v ∈ vs, ∀ path, v.kind ≠ .bind path := by
  constructor
  · intro horder
    by_contra hmixed
    simp only [not_or, not_forall, not_not] at hmixed
    obtain ⟨⟨bad, hbad, hnot⟩, vs, hvs, v, hv, path, hpath⟩ := hmixed
    -- accepted with the clean roots first, so also with the other one first, which refuses every path
    have haccepts := (horder _ (reordered_cleanFirst limits) vs).mpr hvs
    have hchecked := checked_of_volumes ((horder _ (reordered_rootFirst hbad) vs).mp haccepts) v hv
    rw [hpath] at hchecked
    exact checkBindPath_malformed hnot rfl hchecked
  · rintro (hclean | hnone) limits' h vs
    · exact volumes_congr (judgeAlike_of_uniform (.inl hclean) h)
    · -- whatever an order accepts has no bind, since the clean roots first accept it too
      have hbinds {limits₁ : Limits} (h₁ : Reordered limits limits₁)
          (hvs : volumes spec limits₁ = .ok vs) : ∀ v ∈ vs, ∀ path, v.kind ≠ .bind path :=
        hnone vs ((volumes_iff_checked hvs).mpr fun v hv =>
          checked_cleanFirst h₁ (checked_of_volumes hvs v hv))
      constructor
      · intro hvs
        have hno := hbinds ⟨.refl _, .refl _, rfl⟩ hvs
        exact (volumes_iff_checked hvs).mpr fun v hv =>
          checked_of_not_bind h (hno v hv) (checked_of_volumes hvs v hv)
      · intro hvs
        have hno := hbinds h hvs
        exact (volumes_iff_checked hvs).mpr fun v hv =>
          checked_of_not_bind h.symm (hno v hv) (checked_of_volumes hvs v hv)

/-- A bind root that is clean, and one that is not absolute. -/
def mixedLimits : Limits := { bindRoots := ["/srv", "media"], storages := [], maxDiskGib := 64 }

/-- **A root that is not clean**, listed before the one that holds the path. -/
theorem order_matters :
    volumes (bindSpecOf "/srv/media") mixedLimits = .ok [bindVolumeOf "/srv/media"] ∧
      Reordered mixedLimits (rootFirst "media" mixedLimits) ∧
      ∀ vs, volumes (bindSpecOf "/srv/media") (rootFirst "media" mixedLimits) ≠ .ok vs := by
  refine ⟨eq_ok_of_toOption (by decide), reordered_rootFirst (by decide), fun vs h => ?_⟩
  have hnone : (volumes (bindSpecOf "/srv/media") (rootFirst "media" mixedLimits)).toOption = none := by
    decide
  rw [h] at hnone
  cases hnone

end PveCompose
