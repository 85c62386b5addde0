import PveCompose.Lib.Assoc
import PveCompose.Mount

/-!
# A container's config (`pct.rs`)

The config PVE reports is a JSON object (`PveConfig`); `parseConfig` reads the parts of it that
this tool uses.  Every line of the object is read for itself, so the result is a function of the
lines looked up by key:

* `parseConfig_ok` — **PROVED**: what a config that was read holds, part by part (`ReadAs`);
* `parseConfig_isOk_iff` — **PROVED**: a config is read exactly when its `rootfs` line and every
  `mpN` line is.
-/

namespace PveCompose

open Words

/-! ### The config as JSON, and as read -/

/-- A value of the config's JSON object: a string, or anything else with its JSON text. -/
inductive JsonValue where
  | string : Text → JsonValue
  | other : Text → JsonValue
deriving DecidableEq

/-- The text of a value: a string as it is, another value as it prints. -/
def JsonValue.text : JsonValue → Text
  | .string s => s
  | .other t => t

/-- `val.as_u64() == Some(1) || val.as_str() == Some("1")`. -/
def JsonValue.isOne (v : JsonValue) : Bool := v.text = "1"

/-- The most bytes a captured command may answer with. -/
def MAX_OUTPUT : ℕ := 4 * 1024 * 1024

/-- The JSON object of `GET /nodes/{node}/lxc/{vmid}/config`: fields in order, each key once, and
no more of them than the bytes of an answer that is read at all. -/
structure PveConfig where
  fields : List (Text × JsonValue)
  distinct : (fields.map Prod.fst).Nodup
  small : fields.length ≤ MAX_OUTPUT

namespace PveConfig

def get? (conf : PveConfig) (k : Text) : Option JsonValue := Assoc.get? k conf.fields

/-- `conf'` is `conf` with the text `line` under `k`. -/
def Stored (k line : Text) (conf conf' : PveConfig) : Prop :=
  ∀ k', conf'.get? k' = if k' = k then some (.string line) else conf.get? k'

end PveConfig

/-- The parts of a container's config this tool reads. -/
structure GuestConfig where
  vmid : ℕ
  hostname : Option Text
  unprivileged : Bool
  features : TextMap
  tags : List Text
  rootfs : Option Mount
  mounts : List Mount
  isTemplate : Bool
deriving DecidableEq

namespace GuestConfig

def mountAt (g : GuestConfig) (path : Text) : Option Mount :=
  g.mounts.find? fun m => m.mp = some path

def usedIndexes (g : GuestConfig) : List ℕ := g.mounts.filterMap Mount.index

/-- The lowest `mpN` index not in use, or 256. -/
def freeMpIndex (g : GuestConfig) : ℕ :=
  ((List.range 256).find? fun i => i ∉ g.usedIndexes).getD 256

def hasTag (g : GuestConfig) (tag : Text) : Bool := g.tags.any (· = tag)

end GuestConfig

theorem mountAt_eq_none_iff {g : GuestConfig} {path : Text} :
    g.mountAt path = none ↔ ∀ m ∈ g.mounts, m.mp ≠ some path := by
  simp [GuestConfig.mountAt]

theorem mountAt_eq_some {g : GuestConfig} {path : Text} {m : Mount} (h : g.mountAt path = some m) :
    m ∈ g.mounts ∧ m.mp = some path := by
  refine ⟨List.mem_of_find?_eq_some h, ?_⟩
  simpa using List.find?_some h

def parseTags (s : Text) : List Text := ((s.splitOn ';').map trim).filter (· ≠ [])

/-- One item of a `features` line; a bare name means `1`. -/
def readFeature (features : TextMap) (item : Text) : TextMap :=
  if trim item = [] then features
  else
    let (k, v) := (splitOnce '=' (trim item)).getD (trim item, "1")
    features.insert k v

def isMountKey (k : Text) : Bool := "mp".toList.isPrefixOf k && (k.drop 2).all isDigit

/-- One field of the config, in the order of the source's `match`. -/
def readField (c : GuestConfig) (f : Text × JsonValue) : Result GuestConfig :=
  if f.1 = "hostname" then .ok { c with hostname := some f.2.text }
  else if f.1 = "unprivileged" then .ok { c with unprivileged := f.2.isOne }
  else if f.1 = "template" then .ok { c with isTemplate := f.2.isOne }
  else if f.1 = "tags" then .ok { c with tags := parseTags f.2.text }
  else if f.1 = "features" then
    .ok { c with features := (f.2.text.splitOn ',').foldl readFeature c.features }
  else if f.1 = "rootfs" then do
    let m ← Mount.parse "rootfs" f.2.text
    .ok { c with rootfs := some m }
  else if isMountKey f.1 then do
    let m ← Mount.parse f.1 f.2.text
    .ok { c with mounts := c.mounts ++ [m] }
  else .ok c

/-- The order of `sort_by_key(|m| m.index())`: no index before every index. -/
def indexKey (m : Mount) : ℕ := m.index.elim 0 (· + 1)

def sortByIndex (ms : List Mount) : List Mount := ms.insertionSort fun a b => indexKey a ≤ indexKey b

/-- What `parse_config` starts from. -/
def emptyConfig (vmid : ℕ) : GuestConfig :=
  { vmid, hostname := none, unprivileged := false, features := ∅, tags := [], rootfs := none,
    mounts := [], isTemplate := false }

/-- `parse_config`, for a value that is an object. -/
def parseConfig (vmid : ℕ) (conf : PveConfig) : Result GuestConfig := do
  let c ← conf.fields.foldlM readField (emptyConfig vmid)
  .ok { c with mounts := sortByIndex c.mounts }

/-! ### What one field does -/

/-- The mount a field adds. -/
def fieldMount (f : Text × JsonValue) : List Mount :=
  if isMountKey f.1 then (Mount.parse f.1 f.2.text).toOption.toList else []

/-- All that reading one field changes: each part is set by its own name only. -/
structure FieldRead (c : GuestConfig) (f : Text × JsonValue) (c' : GuestConfig) : Prop where
  vmid : c'.vmid = c.vmid
  hostname : c'.hostname = if f.1 = "hostname" then some f.2.text else c.hostname
  unprivileged : c'.unprivileged = if f.1 = "unprivileged" then f.2.isOne else c.unprivileged
  isTemplate : c'.isTemplate = if f.1 = "template" then f.2.isOne else c.isTemplate
  tags : c'.tags = if f.1 = "tags" then parseTags f.2.text else c.tags
  features : c'.features = if f.1 = "features" then
    (f.2.text.splitOn ',').foldl readFeature c.features else c.features
  mounts : c'.mounts = c.mounts ++ fieldMount f

theorem fieldMount_of_not {k : Text} (v : JsonValue) (h : isMountKey k = false) :
    fieldMount (k, v) = [] := by
  simp [fieldMount, h]

theorem fieldMount_of_ok {k : Text} {v : JsonValue} {m : Mount} (hk : isMountKey k = true)
    (h : Mount.parse k v.text = .ok m) : fieldMount (k, v) = [m] := by
  simp [fieldMount, hk, h, Except.toOption]

theorem mem_fieldMount {f : Text × JsonValue} {m : Mount} :
    m ∈ fieldMount f ↔ isMountKey f.1 = true ∧ Mount.parse f.1 f.2.text = .ok m := by
  unfold fieldMount
  cases isMountKey f.1 with
  | false => simp
  | true => cases Mount.parse f.1 f.2.text <;> simp [Except.toOption, eq_comm]

/-- A key that is one of the names of the reader's `match` is no other. -/
theorem ne_name {k : Text} {a b : String} (hk : k = a) (hab : a ≠ b) : k ≠ b := fun hb =>
  hab (String.toList_inj.mp (hk.symm.trans hb))

/-- None of the names the reader's `match` lists is a mount key. -/
theorem not_isMountKey_name {k : Text} {a : String} (hk : k = a)
    (ha : isMountKey a = false) : isMountKey k = false := hk ▸ ha

/-- **One inversion lemma for the reader's `match`.** -/
theorem readField_ok {c c' : GuestConfig} {f : Text × JsonValue} (h : readField c f = .ok c') :
    FieldRead c f c' := by
  obtain ⟨k, v⟩ := f
  -- a field that adds no mount leaves the list as it is
  have hkeep : isMountKey k = false → c.mounts = c.mounts ++ fieldMount (k, v) := fun hk => by
    rw [fieldMount_of_not v hk, List.append_nil]
  unfold readField at h
  split_ifs at h with h₁ h₂ h₃ h₄ h₅ h₆ h₇
  case pos =>
    cases h
    exact ⟨rfl, (if_pos h₁).symm, (if_neg (ne_name h₁ (by decide))).symm,
      (if_neg (ne_name h₁ (by decide))).symm, (if_neg (ne_name h₁ (by decide))).symm,
      (if_neg (ne_name h₁ (by decide))).symm, hkeep (not_isMountKey_name h₁ (by decide))⟩
  case pos =>
    cases h
    exact ⟨rfl, (if_neg h₁).symm, (if_pos h₂).symm, (if_neg (ne_name h₂ (by decide))).symm,
      (if_neg (ne_name h₂ (by decide))).symm, (if_neg (ne_name h₂ (by decide))).symm,
      hkeep (not_isMountKey_name h₂ (by decide))⟩
  case pos =>
    cases h
    exact ⟨rfl, (if_neg h₁).symm, (if_neg h₂).symm, (if_pos h₃).symm,
      (if_neg (ne_name h₃ (by decide))).symm, (if_neg (ne_name h₃ (by decide))).symm,
      hkeep (not_isMountKey_name h₃ (by decide))⟩
  case pos =>
    cases h
    exact ⟨rfl, (if_neg h₁).symm, (if_neg h₂).symm, (if_neg h₃).symm, (if_pos h₄).symm,
      (if_neg (ne_name h₄ (by decide))).symm, hkeep (not_isMountKey_name h₄ (by decide))⟩
  case pos =>
    cases h
    exact ⟨rfl, (if_neg h₁).symm, (if_neg h₂).symm, (if_neg h₃).symm, (if_neg h₄).symm,
      (if_pos h₅).symm, hkeep (not_isMountKey_name h₅ (by decide))⟩
  case pos =>
    obtain ⟨m, -, h⟩ := bind_eq_ok.mp h
    cases h
    exact ⟨rfl, (if_neg h₁).symm, (if_neg h₂).symm, (if_neg h₃).symm, (if_neg h₄).symm,
      (if_neg h₅).symm, hkeep (not_isMountKey_name h₆ (by decide))⟩
  case pos =>
    obtain ⟨m, hm, h⟩ := bind_eq_ok.mp h
    cases h
    exact ⟨rfl, (if_neg h₁).symm, (if_neg h₂).symm, (if_neg h₃).symm, (if_neg h₄).symm,
      (if_neg h₅).symm, by rw [fieldMount_of_ok h₇ hm]⟩
  case neg =>
    cases h
    exact ⟨rfl, (if_neg h₁).symm, (if_neg h₂).symm, (if_neg h₃).symm, (if_neg h₄).symm,
      (if_neg h₅).symm, hkeep (Bool.not_eq_true _ ▸ h₇)⟩

/-! ### What all fields do -/

/-- A part that one name sets holds what that name's field says, or what it held. -/
theorem foldlM_part {β : Type} {k : Text} {part : GuestConfig → β} {r : JsonValue → β → β}
    (hpart : ∀ c f c', FieldRead c f c' →
      part c' = if f.1 = k then r f.2 (part c) else part c)
    {fs : List (Text × JsonValue)} (hnd : (fs.map Prod.fst).Nodup) {c c' : GuestConfig}
    (h : fs.foldlM readField c = .ok c') :
    part c' = (Assoc.get? k fs).elim (part c) fun v => r v (part c) := by
  induction fs generalizing c with
  | nil =>
    cases h
    rfl
  | cons f fs ih =>
    rw [List.foldlM_cons, bind_eq_ok] at h
    obtain ⟨c₁, h₁, h⟩ := h
    obtain ⟨hf, hnd⟩ := List.nodup_cons.mp hnd
    have hstep := hpart c f c₁ (readField_ok h₁)
    rw [ih hnd h, Assoc.get?_cons]
    by_cases hk : f.1 = k
    · rw [if_pos hk] at hstep ⊢
      rw [Assoc.get?_eq_none_iff.mpr (hk ▸ hf), hstep]
      rfl
    · rw [if_neg hk] at hstep ⊢
      rw [hstep]

theorem foldlM_mounts {fs : List (Text × JsonValue)} {c c' : GuestConfig}
    (h : fs.foldlM readField c = .ok c') : c'.mounts = c.mounts ++ fs.flatMap fieldMount := by
  induction fs generalizing c with
  | nil =>
    cases h
    simp
  | cons f fs ih =>
    rw [List.foldlM_cons, bind_eq_ok] at h
    obtain ⟨c₁, h₁, h⟩ := h
    rw [ih h, (readField_ok h₁).mounts, List.flatMap_cons, List.append_assoc]

/-- A `features` line as read. -/
def parseFeatures (s : Text) : TextMap := (s.splitOn ',').foldl readFeature ∅

/-- What a config that was read holds, by the lines looked up. -/
structure ReadAs (vmid : ℕ) (conf : PveConfig) (g : GuestConfig) : Prop where
  vmid : g.vmid = vmid
  hostname : g.hostname = (conf.get? "hostname").map JsonValue.text
  unprivileged : g.unprivileged = (conf.get? "unprivileged").elim false JsonValue.isOne
  isTemplate : g.isTemplate = (conf.get? "template").elim false JsonValue.isOne
  tags : g.tags = (conf.get? "tags").elim [] fun v => parseTags v.text
  features : g.features = (conf.get? "features").elim ∅ fun v => parseFeatures v.text
  mounts : g.mounts.Perm (conf.fields.flatMap fieldMount)

/-- **What a config that was read holds (proved).** -/
theorem parseConfig_ok {vmid : ℕ} {conf : PveConfig} {g : GuestConfig}
    (h : parseConfig vmid conf = .ok g) : ReadAs vmid conf g := by
  obtain ⟨c, hc, h⟩ := bind_eq_ok.mp h
  cases h
  have hnd := conf.distinct
  have hvmid : c.vmid = vmid := by
    refine foldlM_induction (P := fun c => c.vmid = vmid) (fun f _ b b' hb hb' => ?_) rfl hc
    rw [(readField_ok hb').vmid, hb]
  refine ⟨hvmid, ?_, ?_, ?_, ?_, ?_, ?_⟩
  · have hp := foldlM_part (r := fun v _ => some v.text) (fun _ _ _ r => r.hostname) hnd hc
    rw [hp]
    cases hv : conf.get? "hostname" <;> rw [PveConfig.get?] at hv <;> rw [hv] <;> rfl
  · exact foldlM_part (r := fun v _ => v.isOne) (fun _ _ _ r => r.unprivileged) hnd hc
  · exact foldlM_part (r := fun v _ => v.isOne) (fun _ _ _ r => r.isTemplate) hnd hc
  · exact foldlM_part (r := fun v _ => parseTags v.text) (fun _ _ _ r => r.tags) hnd hc
  · exact foldlM_part (r := fun v fs => (v.text.splitOn ',').foldl readFeature fs)
      (fun _ _ _ r => r.features) hnd hc
  · have hm : c.mounts = conf.fields.flatMap fieldMount := by simpa [emptyConfig] using foldlM_mounts hc
    rw [← hm]
    exact List.perm_insertionSort _ _

namespace ReadAs

variable {vmid : ℕ} {conf : PveConfig} {g : GuestConfig}

/-- The mounts are the mount lines that were read, each under its key. -/
theorem mem_mounts (h : ReadAs vmid conf g) {m : Mount} :
    m ∈ g.mounts ↔ isMountKey m.key = true ∧
      ∃ v, conf.get? m.key = some v ∧ Mount.parse m.key v.text = .ok m := by
  rw [h.mounts.mem_iff, List.mem_flatMap]
  constructor
  · rintro ⟨⟨k, v⟩, hf, hm⟩
    obtain ⟨hk, hp⟩ := mem_fieldMount.mp hm
    obtain rfl : m.key = k := (Mount.parse_written hp).2.1
    exact ⟨hk, v, (Assoc.get?_eq_some_iff conf.distinct).mpr hf, hp⟩
  · rintro ⟨hk, v, hv, hp⟩
    exact ⟨(m.key, v), Assoc.mem_of_get? hv, mem_fieldMount.mpr ⟨hk, hp⟩⟩

/-- No two mounts share a key. -/
theorem nodup_keys (h : ReadAs vmid conf g) : (g.mounts.map Mount.key).Nodup := by
  have hsub : ∀ fs : List (Text × JsonValue),
      ((fs.flatMap fieldMount).map Mount.key).Sublist (fs.map Prod.fst) := by
    intro fs
    induction fs with
    | nil => exact List.Sublist.refl _
    | cons f fs ih =>
      have hf : ((fieldMount f).map Mount.key).Sublist [f.1] := by
        unfold fieldMount
        split_ifs
        · cases hp : Mount.parse f.1 f.2.text with
          | error e => simp [Except.toOption]
          | ok m => simp [Except.toOption, (Mount.parse_written hp).2.1]
        · simp
      rw [List.flatMap_cons, List.map_append]
      exact hf.append ih
  rw [(h.mounts.map Mount.key).nodup_iff]
  exact (hsub _).nodup conf.distinct

theorem eq_of_key (h : ReadAs vmid conf g) {m m' : Mount} (hm : m ∈ g.mounts) (hm' : m' ∈ g.mounts)
    (hk : m.key = m'.key) : m = m' :=
  List.inj_on_of_nodup_map h.nodup_keys hm hm' hk

theorem written (h : ReadAs vmid conf g) {m : Mount} (hm : m ∈ g.mounts) : m.Written := by
  obtain ⟨-, v, -, hp⟩ := h.mem_mounts.mp hm
  exact (Mount.parse_written hp).1

end ReadAs

/-- The lines of a config that can keep it from being read are readable. -/
def Readable (conf : PveConfig) : Prop :=
  ∀ k v, conf.get? k = some v → k = "rootfs" ∨ isMountKey k = true →
    ∃ m, Mount.parse k v.text = .ok m

theorem readField_isOk_iff {c : GuestConfig} {k : Text} {v : JsonValue} :
    (∃ c', readField c (k, v) = .ok c')
      ↔ (k = "rootfs" ∨ isMountKey k = true → ∃ m, Mount.parse k v.text = .ok m) := by
  have hnone : ∀ {a : String}, k = a → isMountKey a = false → a ≠ "rootfs" →
      ¬ (k = "rootfs" ∨ isMountKey k = true) := by
    intro a hk ha hne h
    rcases h with h | h
    · exact ne_name hk hne h
    · rw [not_isMountKey_name hk ha] at h
      exact Bool.noConfusion h
  unfold readField
  split_ifs with h₁ h₂ h₃ h₄ h₅ h₆ h₇
  · exact ⟨fun _ h => absurd h (hnone h₁ (by decide) (by decide)), fun _ => ⟨_, rfl⟩⟩
  · exact ⟨fun _ h => absurd h (hnone h₂ (by decide) (by decide)), fun _ => ⟨_, rfl⟩⟩
  · exact ⟨fun _ h => absurd h (hnone h₃ (by decide) (by decide)), fun _ => ⟨_, rfl⟩⟩
  · exact ⟨fun _ h => absurd h (hnone h₄ (by decide) (by decide)), fun _ => ⟨_, rfl⟩⟩
  · exact ⟨fun _ h => absurd h (hnone h₅ (by decide) (by decide)), fun _ => ⟨_, rfl⟩⟩
  · have hk : k = "rootfs" := h₆
    constructor
    · rintro ⟨c', h⟩ -
      obtain ⟨m, hm, -⟩ := bind_eq_ok.mp h
      exact ⟨m, hk ▸ hm⟩
    · intro h
      obtain ⟨m, hm⟩ := h (.inl hk)
      exact ⟨_, bind_eq_ok.mpr ⟨m, hk ▸ hm, rfl⟩⟩
  · constructor
    · rintro ⟨c', h⟩ -
      obtain ⟨m, hm, -⟩ := bind_eq_ok.mp h
      exact ⟨m, hm⟩
    · intro h
      obtain ⟨m, hm⟩ := h (.inr h₇)
      exact ⟨_, bind_eq_ok.mpr ⟨m, hm, rfl⟩⟩
  · exact ⟨fun _ h => absurd h (not_or.mpr ⟨h₆, h₇⟩), fun _ => ⟨_, rfl⟩⟩

/-- **When a config is read (proved)**: exactly when its `rootfs` line and every mount line is. -/
theorem parseConfig_isOk_iff {vmid : ℕ} {conf : PveConfig} :
    (∃ g, parseConfig vmid conf = .ok g) ↔ Readable conf := by
  have hfold : ∀ (fs : List (Text × JsonValue)) (c : GuestConfig),
      (∃ c', fs.foldlM readField c = .ok c') ↔ ∀ f ∈ fs,
        (f.1 = "rootfs" ∨ isMountKey f.1 = true → ∃ m, Mount.parse f.1 f.2.text = .ok m) := by
    intro fs
    induction fs with
    | nil => exact fun c => ⟨fun _ _ h => absurd h List.not_mem_nil, fun _ => ⟨c, rfl⟩⟩
    | cons f fs ih =>
      intro c
      rw [List.forall_mem_cons]
      constructor
      · rintro ⟨c', h⟩
        rw [List.foldlM_cons, bind_eq_ok] at h
        obtain ⟨c₁, h₁, h₂⟩ := h
        exact ⟨readField_isOk_iff.mp ⟨c₁, h₁⟩, (ih c₁).mp ⟨c', h₂⟩⟩
      · rintro ⟨hf, hfs⟩
        obtain ⟨c₁, h₁⟩ := readField_isOk_iff.mpr hf
        obtain ⟨c', h₂⟩ := (ih c₁).mpr hfs
        exact ⟨c', by rw [List.foldlM_cons, h₁]; exact h₂⟩
  have hlines : Readable conf ↔ ∀ f ∈ conf.fields,
      (f.1 = "rootfs" ∨ isMountKey f.1 = true → ∃ m, Mount.parse f.1 f.2.text = .ok m) := by
    constructor
    · rintro h ⟨k, v⟩ hf
      exact h k v ((Assoc.get?_eq_some_iff conf.distinct).mpr hf)
    · intro h k v hv
      exact h (k, v) (Assoc.mem_of_get? hv)
  rw [hlines, ← hfold conf.fields (emptyConfig vmid)]
  constructor
  · rintro ⟨g, h⟩
    obtain ⟨c, hc, -⟩ := bind_eq_ok.mp h
    exact ⟨c, hc⟩
  · rintro ⟨c, hc⟩
    exact ⟨_, bind_eq_ok.mpr ⟨c, hc, rfl⟩⟩

end PveCompose
