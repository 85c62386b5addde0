import PveCompose.Config
import PveCompose.Doc

/-!
# The compose document (`spec.rs`)

Which of a document's volumes this tool manages (`volumes`), held against the node's limits, and
the compose file that goes into the guest (`render`).

* `checkCleanAbsolute_eq_ok_iff`, `under_iff_segments` — **PROVED**: the path checks by text are the path
  checks by segments (`CleanAbsolute`);
* `segments_of_under` — **PROVED**: a path under a root by text has the root's segments as its
  first segments;
* `volumes_allowed` — **PROVED**: every volume of an accepted document is `Allowed` under the
  limits: its name is one usable directory name, a bind path lies under a root segment by segment,
  a disk names a listed storage and stays under the ceiling.
-/

namespace PveCompose

open Words

def VOLUMES_DIR : Text := "/opt/stack/volumes"

def STACK_DIR : Text := "/opt/stack"

inductive Kind where
  | disk : Option Text → Size → Kind
  | bind : Text → Kind
  | plain : Kind
deriving DecidableEq

structure Volume where
  name : Text
  kind : Kind
  owner : Option Text
  backup : Bool
deriving DecidableEq

/-- The directory inside the guest. -/
def Volume.dir (v : Volume) : Text := VOLUMES_DIR ++ '/' :: v.name

/-! ### The checks against the limits -/

def checkSegment (path seg : Text) : Result Unit :=
  if seg = [] then bail ("'" ++ path ++ "' has an empty segment (no '//', no trailing '/')")
  else if seg = "." ∨ seg = ".." then bail ("'" ++ path ++ "' has a '" ++ seg ++ "' segment")
  else .ok ()

def checkCleanAbsolute (path : Text) : Result Unit :=
  match path with
  | '/' :: [] => .ok ()
  | '/' :: rest => (rest.splitOn '/').forM (checkSegment path)
  | _ => bail ("'" ++ path ++ "' must be absolute")

/-- `under`: whether `path` is `root` or lies under it. -/
def under (root path : Text) : Bool :=
  let before : Text := if root = "/" then "/" else root ++ "/"
  path = root || before.isPrefixOf path

/-- The loop over `limits.bind_roots`: every root passed by must be clean itself. -/
def underSome (path : Text) : List Text → Result Bool
  | [] => .ok false
  | root :: roots => do
    withContext (Config.PATH ++ ": limits.bind_roots") (checkCleanAbsolute root)
    if under root path then .ok true else underSome path roots

def joined (l : List Text) : Text := List.intercalate ", " l

def checkBindPath (name path : Text) (limits : Limits) : Result Unit := do
  withContext ("spec.volumes." ++ name ++ ".x-pve.path") (checkCleanAbsolute path)
  if limits.bindRoots = [] then
    bail ("spec.volumes." ++ name ++ ".x-pve.path: host binds are refused; "
      ++ "list the directories a document may bind under `limits.bind_roots` in " ++ Config.PATH)
  else if ← underSome path limits.bindRoots then .ok ()
  else
    bail ("spec.volumes." ++ name ++ ".x-pve.path: '" ++ path
      ++ "' is not under any of `limits.bind_roots` (" ++ joined limits.bindRoots ++ ") in "
      ++ Config.PATH)

def checkStorage (name storage : Text) (limits : Limits) : Result Unit :=
  if storage ∈ limits.storages then .ok ()
  else if limits.storages = [] then
    bail ("spec.volumes." ++ name ++ ".x-pve.storage: '" ++ storage
      ++ "' is refused; this node has no disk "
      ++ "storage (`pve-compose config set storage <storage>`) and no `limits.storages` in "
      ++ Config.PATH)
  else
    bail ("spec.volumes." ++ name ++ ".x-pve.storage: '" ++ storage
      ++ "' is not one of `limits.storages` (" ++ joined limits.storages ++ ") in " ++ Config.PATH)

/-- `a.saturating_mul(1 << 30)`. -/
def ceiling (limits : Limits) : ℕ := min (limits.maxDiskGib * 2 ^ 30) (2 ^ 64 - 1)

def checkSize (name : Text) (size : Size) (limits : Limits) : Result Unit :=
  if ceiling limits < size.bytes then
    bail ("spec.volumes." ++ name ++ ".x-pve.size: " ++ size.display
      ++ " is above `limits.max_disk_gib` (" ++ dec limits.maxDiskGib ++ " GiB) in " ++ Config.PATH)
  else .ok ()

def isNameChar (c : Char) : Bool := c.isAlphanum || c = '_' || c = '-' || c = '.'

def validVolumeName (name : Text) : Bool :=
  name ≠ [] && name.all isNameChar && name.head? ≠ some '.'

/-! ### `x-pve` -/

structure XPve where
  storage : Option Text
  size : Option Size
  path : Option Text
  owner : Option Text
  backup : Option Bool

def XPve.empty : XPve :=
  { storage := none, size := none, path := none, owner := none, backup := none }

/-- How the YAML library names a value of the wrong type. -/
def unexpected : Value → Text
  | .null => "unit value"
  | .bool b => "boolean `" ++ (if b then ("true" : Text) else "false") ++ "`"
  | .number (.int n) => "integer `" ++ (Number.int n).text ++ "`"
  | .number (.float t) => "floating point `" ++ t ++ "`"
  | .string s => "string \"" ++ s ++ "\""
  | .sequence _ => "sequence"
  | .mapping _ => "map"
  | .tagged _ _ => "enum"

/-- An `Option<String>`: only an untagged null is none. -/
def readText : Value → Result (Option Text)
  | .null => .ok none
  | v => match v.asStr with
    | some s => .ok (some s)
    | none => bail ("invalid type: " ++ unexpected v.untag ++ ", expected a string")

/-- An `Option<Size>`: a string or a number, by its text. -/
def readSize : Value → Result (Option Size)
  | .null => .ok none
  | .string s => do
    let size ← Size.fromStr s
    .ok (some size)
  | .number n => do
    let size ← Size.fromStr n.text
    .ok (some size)
  | _ => bail "size must be a string like 20G"

/-- One entry of an `x-pve` map: no name twice, and no other names. -/
def readXPve (st : XPve × List Text) (e : Value × Value) : Result (XPve × List Text) :=
  let (x, seen) := st
  match e.1.asStr with
  | none => bail ("invalid type: " ++ unexpected e.1.untag ++ ", expected field identifier")
  | some k =>
    if k ∈ seen then bail ("duplicate field `" ++ k ++ "`")
    else if k = "storage" then do
      let s ← readText e.2
      .ok ({ x with storage := s }, k :: seen)
    else if k = "size" then do
      let s ← readSize e.2
      .ok ({ x with size := s }, k :: seen)
    else if k = "path" then do
      let p ← readText e.2
      .ok ({ x with path := p }, k :: seen)
    else if k = "owner" then do
      let o ← readText e.2
      .ok ({ x with owner := o }, k :: seen)
    else if k = "backup" then do
      let b ← flagOpt e.2
      .ok ({ x with backup := b }, k :: seen)
    else bail ("unknown field `" ++ k
      ++ "`, expected one of `storage`, `size`, `path`, `owner`, `backup`")

/-- `from_value::<XPve>`. -/
def XPve.fromValue (v : Value) : Result XPve :=
  match v.untag with
  | .mapping m => do
    let (x, _) ← m.foldlM readXPve (XPve.empty, [])
    .ok x
  | .null => .ok XPve.empty
  | other => bail ("invalid type: " ++ unexpected other ++ ", expected struct XPve")

/-! ### The volumes of a document -/

/-- The shape of an `x-pve`, held against the limits. -/
def classify (name : Text) (x : XPve) (limits : Limits) : Result Kind :=
  match x.path, x.storage, x.size with
  | some p, none, none => do
    if x.backup.isSome then
      bail ("spec.volumes." ++ name
        ++ ".x-pve: backup applies to disks; PVE never backs up a bind mount")
    else
      checkBindPath name p limits
      .ok (.bind p)
  | some _, _, _ => bail ("spec.volumes." ++ name ++ ".x-pve: path and storage/size are exclusive")
  | none, storage, some size => do
    checkSize name size limits
    storage.toList.forM fun s => checkStorage name s limits
    .ok (.disk storage size)
  | none, some _, none => bail ("spec.volumes." ++ name ++ ".x-pve: storage needs a size")
  | none, none, none => .ok .plain

/-- The `x-pve` of a definition; an untagged null is none. -/
def readDef (name : Text) (d : Value) : Result (Option XPve) :=
  match d.get "x-pve" with
  | none => .ok none
  | some .null => .ok none
  | some xv => do
    let x ← withContext ("spec.volumes." ++ name ++ ".x-pve") (XPve.fromValue xv)
    .ok (some x)

/-- One managed volume. -/
def readVolume (limits : Limits) (name : Text) (d : Value) : Result Volume := do
  match ← readDef name d with
  | none => .ok { name, kind := .plain, owner := none, backup := true }
  | some x =>
    x.owner.toList.forM fun o => do
      let _ ← withContext ("spec.volumes." ++ name ++ ".x-pve.owner") (splitOwner o)
      .ok ()
    let kind ← classify name x limits
    .ok { name, kind, owner := x.owner, backup := x.backup.getD true }

/-- One entry of `volumes`; an external one is no volume of ours. -/
def readEntry (limits : Limits) (e : Value × Value) : Result (Option Volume) :=
  match e.1.asStr with
  | none => bail "spec.volumes: a volume name is not a string"
  | some name =>
    if ¬ validVolumeName name then bail ("spec.volumes." ++ name ++ ": not a usable directory name")
    else
      -- a pattern match: a tagged definition is not a map
      match e.2 with
      | .null | .mapping _ =>
        if (e.2.get "external").bind flagOf = some true then .ok none
        else do
          let v ← readVolume limits name e.2
          .ok (some v)
      | _ => bail ("spec.volumes." ++ name ++ ": not a map")

/-- `volumes`: the managed volumes in declaration order. -/
def volumes (spec : Value) (limits : Limits) : Result (List Volume) :=
  match spec.get "volumes" with
  | none => .ok []
  | some vols =>
    if vols.isNull then .ok []
    else match vols.asMapping with
      | none => bail "spec.volumes is not a map"
      | some map => do
        let read ← map.mapM (readEntry limits)
        .ok (read.filterMap id)

/-! ### Paths by segments -/

/-- The segments of an absolute path; `/` has none. -/
def segments (path : Text) : List Text := if path = "/" then [] else (path.drop 1).splitOn '/'

/-- An absolute path with no empty, `.` or `..` segment. -/
structure CleanAbsolute (path : Text) : Prop where
  absolute : path.head? = some '/'
  clean : ∀ seg ∈ segments path, seg ≠ [] ∧ seg ≠ "." ∧ seg ≠ ".."

theorem checkSegment_eq_ok_iff {path seg : Text} :
    checkSegment path seg = .ok () ↔ seg ≠ [] ∧ seg ≠ "." ∧ seg ≠ ".." := by
  unfold checkSegment
  split_ifs with h h'
  · simp [h]
  · simp only [bail_ne_ok, false_iff]
    tauto
  · simp only [true_iff]
    tauto

theorem segments_cons {rest : Text} (h : rest ≠ []) : segments ('/' :: rest) = rest.splitOn '/' :=
  if_neg fun h' => h (by simpa using h')

/-- **The path check is the check of its segments (proved).** -/
theorem checkCleanAbsolute_eq_ok_iff {path : Text} :
    checkCleanAbsolute path = .ok () ↔ CleanAbsolute path := by
  unfold checkCleanAbsolute
  split
  · exact ⟨fun _ => ⟨rfl, fun seg h => absurd h List.not_mem_nil⟩, fun _ => rfl⟩
  · rename_i rest hrest
    have hne : rest ≠ [] := fun h => hrest (h ▸ rfl)
    rw [forM_eq_ok_iff]
    simp only [checkSegment_eq_ok_iff]
    rw [← segments_cons hne]
    exact ⟨fun h => ⟨rfl, h⟩, fun h => h.clean⟩
  · rename_i hslash
    simp only [bail_ne_ok, false_iff]
    intro h
    obtain ⟨rest, rfl⟩ := List.head?_eq_some_iff.mp h.absolute
    exact hslash rest rfl

/-- **A path under a root by text is under it by segments (proved).** -/
theorem segments_of_under {root path : Text} (hroot : CleanAbsolute root)
    (h : under root path = true) : segments root <+: segments path := by
  obtain ⟨r, rfl⟩ := List.head?_eq_some_iff.mp hroot.absolute
  simp only [under, Bool.or_eq_true, decide_eq_true_eq] at h
  rcases h with rfl | h
  · exact List.prefix_refl _
  by_cases hr : r = []
  · subst hr
    exact List.nil_prefix
  · have hne : ¬ ('/' :: r = "/".toList) := fun h' => hr (by simpa using h')
    rw [if_neg hne, List.isPrefixOf_iff_prefix] at h
    obtain ⟨t, rfl⟩ := h
    have hpre : r ++ ['/'] <+: r ++ "/".toList ++ t := List.prefix_append _ _
    rw [segments_cons hr, List.cons_append, List.cons_append, segments_cons (by simp)]
    exact splitOn_prefix_of_append hpre

/-- **A path lies under a root by text exactly when it does by segments (proved).** -/
theorem under_iff_segments {root path : Text} (hroot : CleanAbsolute root) (hpath : CleanAbsolute path) :
    under root path = true ↔ segments root <+: segments path := by
  refine ⟨segments_of_under hroot, fun h => ?_⟩
  obtain ⟨r, rfl⟩ := List.head?_eq_some_iff.mp hroot.absolute
  obtain ⟨p, rfl⟩ := List.head?_eq_some_iff.mp hpath.absolute
  simp only [under, Bool.or_eq_true, decide_eq_true_eq]
  by_cases hr : r = []
  · subst hr
    exact .inr rfl
  have hne : ¬ ('/' :: r = "/".toList) := fun h' => hr (by simpa using h')
  rw [if_neg hne, List.isPrefixOf_iff_prefix]
  by_cases hp : p = []
  · subst hp
    rw [segments_cons hr] at h
    exact absurd (List.prefix_nil.mp h) (List.splitOn_ne_nil _ _)
  · rw [segments_cons hr, segments_cons hp] at h
    rcases append_prefix_of_splitOn h with rfl | ⟨t, rfl⟩
    · exact .inl rfl
    · exact .inr ⟨t, rfl⟩

/-! ### What an accepted document asks for -/

/-- A bind path within the limits. -/
structure AllowedBind (limits : Limits) (path : Text) : Prop where
  clean : CleanAbsolute path
  under : ∃ root ∈ limits.bindRoots, CleanAbsolute root ∧ segments root <+: segments path

/-- A disk within the limits. -/
structure AllowedDisk (limits : Limits) (storage : Option Text) (size : Size) : Prop where
  storage : ∀ s ∈ storage, s ∈ limits.storages
  ceiling : size.bytes ≤ limits.maxDiskGib * 2 ^ 30
  pos : 0 < size.bytes

/-- A volume within the limits. -/
structure Allowed (limits : Limits) (v : Volume) : Prop where
  name : validVolumeName v.name = true
  bind : ∀ path, v.kind = .bind path → AllowedBind limits path
  disk : ∀ storage size, v.kind = .disk storage size → AllowedDisk limits storage size

theorem of_underSome {path : Text} {roots : List Text} (h : underSome path roots = .ok true) :
    ∃ root ∈ roots, CleanAbsolute root ∧ under root path = true := by
  induction roots with
  | nil => cases h
  | cons root roots ih =>
    obtain ⟨u, hclean, h⟩ := bind_eq_ok.mp h
    have hroot := checkCleanAbsolute_eq_ok_iff.mp (withContext_eq_ok.mp hclean)
    split_ifs at h with hunder
    · exact ⟨root, by simp, hroot, hunder⟩
    · obtain ⟨root', hmem, h'⟩ := ih h
      exact ⟨root', by simp [hmem], h'⟩

theorem checkBindPath_ok {name path : Text} {limits : Limits}
    (h : checkBindPath name path limits = .ok ()) : AllowedBind limits path := by
  obtain ⟨_, hclean, h⟩ := bind_eq_ok.mp h
  have hpath := checkCleanAbsolute_eq_ok_iff.mp (withContext_eq_ok.mp hclean)
  split_ifs at h with hnone
  · exact absurd h bail_ne_ok
  · obtain ⟨b, hb, h⟩ := bind_eq_ok.mp h
    cases b with
    | false => exact absurd h bail_ne_ok
    | true =>
      obtain ⟨root, hmem, hroot, hunder⟩ := of_underSome hb
      exact ⟨hpath, root, hmem, hroot, segments_of_under hroot hunder⟩

theorem checkStorage_ok {name storage : Text} {limits : Limits}
    (h : checkStorage name storage limits = .ok ()) : storage ∈ limits.storages := by
  unfold checkStorage at h
  split_ifs at h with hmem hnone
  · exact hmem
  · exact absurd h bail_ne_ok
  · exact absurd h bail_ne_ok

theorem checkSize_ok {name : Text} {size : Size} {limits : Limits}
    (h : checkSize name size limits = .ok ()) : size.bytes ≤ limits.maxDiskGib * 2 ^ 30 := by
  unfold checkSize at h
  split_ifs at h with hlt
  · exact absurd h bail_ne_ok
  · simp only [PveCompose.ceiling] at hlt
    omega

/-- A size a document spells is never zero. -/
theorem readSize_pos {v : Value} {s : Size} (h : readSize v = .ok (some s)) : 0 < s.bytes := by
  unfold readSize at h
  split at h
  · cases h
  · obtain ⟨size, hs, h⟩ := bind_eq_ok.mp h
    cases h
    exact Size.fromStr_pos hs
  · obtain ⟨size, hs, h⟩ := bind_eq_ok.mp h
    cases h
    exact Size.fromStr_pos hs
  · exact absurd h bail_ne_ok

theorem readXPve_size_pos {st st' : XPve × List Text} {e : Value × Value}
    (hst : ∀ s ∈ st.1.size, 0 < s.bytes) (h : readXPve st e = .ok st') :
    ∀ s ∈ st'.1.size, 0 < s.bytes := by
  obtain ⟨x, seen⟩ := st
  unfold readXPve at h
  dsimp only at h
  split at h
  · exact absurd h bail_ne_ok
  -- only the `size` entry sets the size
  split_ifs at h
  · exact absurd h bail_ne_ok
  · obtain ⟨a, -, h⟩ := bind_eq_ok.mp h
    cases h
    exact hst
  · obtain ⟨a, ha, h⟩ := bind_eq_ok.mp h
    cases h
    rintro s hs
    obtain rfl : a = some s := hs
    exact readSize_pos ha
  · obtain ⟨a, -, h⟩ := bind_eq_ok.mp h
    cases h
    exact hst
  · obtain ⟨a, -, h⟩ := bind_eq_ok.mp h
    cases h
    exact hst
  · obtain ⟨a, -, h⟩ := bind_eq_ok.mp h
    cases h
    exact hst
  · exact absurd h bail_ne_ok

theorem fromValue_size_pos {v : Value} {x : XPve} (h : XPve.fromValue v = .ok x) :
    ∀ s ∈ x.size, 0 < s.bytes := by
  unfold XPve.fromValue at h
  split at h
  · obtain ⟨⟨x', seen⟩, hfold, h⟩ := bind_eq_ok.mp h
    cases h
    exact foldlM_induction (P := fun st : XPve × List Text => ∀ s ∈ st.1.size, 0 < s.bytes)
      (fun _ _ _ _ => readXPve_size_pos) (by simp [XPve.empty]) hfold
  · cases h
    simp [XPve.empty]
  · exact absurd h bail_ne_ok

theorem classify_allowed {name : Text} {x : XPve} {limits : Limits} {kind : Kind}
    (hsize : ∀ s ∈ x.size, 0 < s.bytes) (h : classify name x limits = .ok kind) :
    (∀ path, kind = .bind path → AllowedBind limits path) ∧
      ∀ storage size, kind = .disk storage size → AllowedDisk limits storage size := by
  unfold classify at h
  split at h
  · split_ifs at h
    · exact absurd h bail_ne_ok
    · obtain ⟨_, hp, h⟩ := bind_eq_ok.mp h
      cases h
      refine ⟨?_, nofun⟩
      rintro _ ⟨⟩
      exact checkBindPath_ok hp
  · exact absurd h bail_ne_ok
  · rename_i size _ hs
    obtain ⟨_, hc, h⟩ := bind_eq_ok.mp h
    obtain ⟨_, hst, h⟩ := bind_eq_ok.mp h
    cases h
    refine ⟨nofun, ?_⟩
    rintro _ _ ⟨⟩
    refine ⟨fun s hmem => ?_, checkSize_ok hc, hsize size hs⟩
    exact checkStorage_ok (forM_eq_ok_iff.mp hst s (Option.mem_toList.mpr hmem))
  · exact absurd h bail_ne_ok
  · cases h
    exact ⟨nofun, nofun⟩

theorem readVolume_allowed {limits : Limits} {name : Text} {d : Value} {v : Volume}
    (hname : validVolumeName name = true) (h : readVolume limits name d = .ok v) :
    Allowed limits v := by
  obtain ⟨ox, hx, h⟩ := bind_eq_ok.mp h
  cases ox with
  | none =>
    cases h
    exact ⟨hname, nofun, nofun⟩
  | some x =>
    have hsize : ∀ s ∈ x.size, 0 < s.bytes := by
      unfold readDef at hx
      split at hx
      · cases hx
      · cases hx
      · obtain ⟨x', hx', h'⟩ := bind_eq_ok.mp hx
        cases h'
        exact fromValue_size_pos (withContext_eq_ok.mp hx')
    obtain ⟨_, -, h⟩ := bind_eq_ok.mp h
    obtain ⟨kind, hkind, h⟩ := bind_eq_ok.mp h
    cases h
    obtain ⟨hb, hd⟩ := classify_allowed hsize hkind
    exact ⟨hname, hb, hd⟩

/-- An entry that gives a volume has a usable name and a plain definition that is not external. -/
theorem readEntry_some {limits : Limits} {e : Value × Value} {v : Volume}
    (h : readEntry limits e = .ok (some v)) : ∃ name, e.1.asStr = some name ∧
      validVolumeName name = true ∧ (e.2 = .null ∨ ∃ m, e.2 = .mapping m) ∧
      (e.2.get "external").bind flagOf ≠ some true ∧ readVolume limits name e.2 = .ok v := by
  unfold readEntry at h
  split at h
  · exact absurd h bail_ne_ok
  rename_i name hkey
  split at h
  · exact absurd h bail_ne_ok
  rename_i hname
  rw [not_not] at hname
  split at h
  · rename_i hnull
    split_ifs at h with hexternal
    · cases h
    · obtain ⟨v', hv', h⟩ := bind_eq_ok.mp h
      cases h
      exact ⟨name, hkey, hname, .inl hnull, hexternal, hv'⟩
  · rename_i m hmap
    split_ifs at h with hexternal
    · cases h
    · obtain ⟨v', hv', h⟩ := bind_eq_ok.mp h
      cases h
      exact ⟨name, hkey, hname, .inr ⟨m, hmap⟩, hexternal, hv'⟩
  · exact absurd h bail_ne_ok

theorem of_mem_volumes {spec : Value} {limits : Limits} {vs : List Volume}
    (h : volumes spec limits = .ok vs) {v : Volume} (hv : v ∈ vs) :
    ∃ e, readEntry limits e = .ok (some v) := by
  unfold volumes at h
  split at h
  · cases h
    exact absurd hv List.not_mem_nil
  split_ifs at h
  · cases h
    exact absurd hv List.not_mem_nil
  split at h
  · exact absurd h bail_ne_ok
  obtain ⟨read, hread, h⟩ := bind_eq_ok.mp h
  cases h
  obtain ⟨ov, hov, rfl⟩ : ∃ ov ∈ read, ov = some v := by simpa using hv
  obtain ⟨e, -, he⟩ := of_mem_mapM hread hov
  exact ⟨e, he⟩

/-- **Every volume of an accepted document is within the limits (proved).** -/
theorem volumes_allowed {spec : Value} {limits : Limits} {vs : List Volume}
    (h : volumes spec limits = .ok vs) : ∀ v ∈ vs, Allowed limits v := by
  intro v hv
  obtain ⟨e, he⟩ := of_mem_volumes h hv
  obtain ⟨name, -, hname, -, -, hread⟩ := readEntry_some he
  exact readVolume_allowed hname hread

/-! ### Names as directories -/

theorem isNameChar_of_mem {name : Text} (h : validVolumeName name = true) :
    ∀ c ∈ name, isNameChar c = true := by
  simp only [validVolumeName, Bool.and_eq_true] at h
  exact List.all_eq_true.mp h.1.2

/-- A usable name is one path segment that is not empty, `.` or `..`. -/
theorem segment_of_validVolumeName {name : Text} (h : validVolumeName name = true) :
    '/' ∉ name ∧ name ≠ [] ∧ name ≠ "." ∧ name ≠ ".." := by
  have hchars := isNameChar_of_mem h
  simp only [validVolumeName, Bool.and_eq_true, decide_eq_true_eq] at h
  refine ⟨fun hs => absurd (hchars _ hs) (by decide), h.1.1, ?_, ?_⟩
  · rintro rfl
    exact h.2 rfl
  · rintro rfl
    exact h.2 rfl

theorem dir_inj {v w : Volume} (h : v.dir = w.dir) : v.name = w.name := by
  simpa [Volume.dir] using h

theorem comma_not_mem_dir {v : Volume} (h : validVolumeName v.name = true) : ',' ∉ v.dir := by
  have hname : ',' ∉ v.name := fun hc => absurd (isNameChar_of_mem h _ hc) (by decide)
  have hdir : ',' ∉ VOLUMES_DIR := by decide
  simp [Volume.dir, hname, hdir]

/-! ### Rendering -/

structure Vars where
  vmid : ℕ
  uid : Text
  gid : Text
  name : Text
  project : Text
deriving DecidableEq

/-- `Vars::map`, in the map's order. -/
def Vars.map (vars : Vars) : List (Text × Text) :=
  [("PVE_GID", vars.gid), ("PVE_NAME", vars.name), ("PVE_STACK", STACK_DIR), ("PVE_UID", vars.uid),
    ("PVE_VMID", dec vars.vmid)]

/-- `str::replace` from the left; the counter skips what is left of a replaced occurrence. -/
def replaceFrom (pat new : Text) : ℕ → Text → Text
  | _, [] => []
  | k + 1, _ :: s => replaceFrom pat new k s
  | 0, c :: s =>
    if pat.isPrefixOf (c :: s) then new ++ replaceFrom pat new (pat.length - 1) s
    else c :: replaceFrom pat new 0 s

def replace (s pat new : Text) : Text := replaceFrom pat new 0 s

def substitute (s : Text) (vars : List (Text × Text)) : Text :=
  if ¬ ("$\x7bPVE_".toList <:+: s) ∧ ¬ ("$PVE_".toList <:+: s) then s
  else
    vars.foldl (fun out kv =>
      replace (replace out ("$\x7b" ++ kv.1 ++ "\x7d") kv.2) ("$" ++ kv.1) kv.2) s

mutual

/-- `walk`: substitution in every string but the keys. -/
def walk (vars : List (Text × Text)) : Value → Value
  | .string s => .string (substitute s vars)
  | .sequence items => .sequence (walkItems vars items)
  | .mapping m => .mapping (walkEntries vars m)
  | .tagged t v => .tagged t (walk vars v)
  | v => v

def walkItems (vars : List (Text × Text)) : List Value → List Value
  | [] => []
  | v :: vs => walk vars v :: walkItems vars vs

def walkEntries (vars : List (Text × Text)) : List (Value × Value) → List (Value × Value)
  | [] => []
  | (k, v) :: es => (k, walk vars v) :: walkEntries vars es

end

/-- The bind that stands for a managed volume; a `name` of the author's definition is kept. -/
def bindDef (v : Volume) (old : Option Value) : Value :=
  let name : Mapping := match old with
    | some (.mapping m) => ((Mapping.get m "name").map fun n => (Value.string "name", n)).toList
    | _ => []
  .mapping ([(.string "driver", .string "local"),
    (.string "driver_opts", .mapping [(.string "type", .string "none"),
      (.string "o", .string "bind"), (.string "device", .string v.dir)])] ++ name)

/-- The `volumes` map with every managed definition replaced. -/
def bindVolumes (vols : List Volume) (m : Mapping) : Mapping :=
  vols.foldl (fun m v => Mapping.insert m v.name (bindDef v (Mapping.get m v.name))) m

/-- `get_mut("volumes")`: through the tags of the whole, not of the map found. -/
def renderVolumes (vols : List Volume) : Value → Value
  | .tagged t v => .tagged t (renderVolumes vols v)
  | .mapping top => .mapping <| top.map fun e =>
      if e.1.isKey "volumes" then
        match e.2 with
        | .mapping m => (e.1, .mapping (bindVolumes vols m))
        | _ => e
      else e
  | v => v

/-- The project name as the first key. -/
def renderName (project : Text) : Value → Value
  | .mapping top =>
      .mapping ((.string "name", .string project) :: top.filter fun e => e.1.asStr ≠ some "name".toList)
  | v => v

/-- The value `render` prints. -/
def renderValue (spec : Value) (vols : List Volume) (vars : Vars) : Value :=
  renderVolumes vols (renderName vars.project (walk vars.map spec))

def HEADER : Text :=
  "# Rendered by pve-compose from this guest's pve-meta document (compose.spec).\n"
    ++ "# Edit the document, not this file: the next apply overwrites it.\n"

/-- `render`; `toYaml` is the YAML library printing a value. -/
def render (toYaml : Value → Result Text) (spec : Value) (vols : List Volume) (vars : Vars) :
    Result Text := do
  let text ← withContext "rendering compose.yaml" (toYaml (renderValue spec vols vars))
  .ok (HEADER ++ text)

end PveCompose
