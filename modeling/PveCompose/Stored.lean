import PveCompose.Host

/-!
# The stored choices, written and read back (`config.rs`, `ops/configcmd.rs`)

A config is saved as a comment line and the YAML of what differs from the defaults (`toValue`,
`saveText`); the next command reads that text (`ofValue`, `Config.load`).  The YAML library itself is
a parameter: what it reads back is the value tree it printed (`ConfigFile`).

* `Config.value`, `Config.put` — the choices as a store by key, with `change_eq_puts`: what `config
  set`, `config unset` and `new` do to it;
* `ofValue_toValue` — **PROVED**: the tree of a config reads back as that config, with its size
  printed and read again (`Config.reread`);
* `load_saveText` — **PROVED**: so does the file;
* `read_back_iff` — **PROVED**: in a sequence of changes each of them reads back, and changes its own
  key and no other, exactly when every size that is set does (`ConfigChange.Whole`).
-/

namespace PveCompose

/-! ### The choices by key -/

inductive ConfigKey where
  /-- The disk storage of a node. -/
  | storage : Text → ConfigKey
  | templateStorage : ConfigKey
  | templateBase : ConfigKey
  | owner : ConfigKey
  | bridge : ConfigKey
  | cores : ConfigKey
  | memory : ConfigKey
  | rootfsSize : ConfigKey
deriving DecidableEq

/-- What is stored under a key. -/
def ConfigKey.Value : ConfigKey → Type
  | .storage _ | .templateStorage => Option Text
  | .templateBase | .owner | .bridge => Text
  | .cores | .memory => ℕ
  | .rootfsSize => Size

namespace Config

/-- `set_storage_for`. -/
def setStorageFor (c : Config) (node : Text) : Option Text → Config
  | some s =>
    let n : NodeOverrides := c.nodes[node]?.getD ⟨none⟩
    { c with nodes := c.nodes.insert node { n with storage := some s } }
  | none =>
    match c.nodes[node]? with
    | some n =>
      let n : NodeOverrides := { n with storage := none }
      if n = ⟨none⟩ then { c with nodes := c.nodes.erase node }
      else { c with nodes := c.nodes.insert node n }
    | none => c

def value (c : Config) : (k : ConfigKey) → k.Value
  | .storage node => c.storageFor node
  | .templateStorage => c.template.storage
  | .templateBase => c.template.base
  | .owner => c.defaults.owner
  | .bridge => c.defaults.bridge
  | .cores => c.defaults.cores
  | .memory => c.defaults.memory
  | .rootfsSize => c.defaults.rootfsSize

def put (c : Config) : (k : ConfigKey) → k.Value → Config
  | .storage node, v => c.setStorageFor node v
  | .templateStorage, v => { c with template.storage := v }
  | .templateBase, v => { c with template.base := v }
  | .owner, v => { c with defaults.owner := v }
  | .bridge, v => { c with defaults.bridge := v }
  | .cores, v => { c with defaults.cores := v }
  | .memory, v => { c with defaults.memory := v }
  | .rootfsSize, v => { c with defaults.rootfsSize := v }

variable {c : Config} {node node' : Text} {s : Option Text}

/-- Nothing but the nodes changes. -/
theorem setStorageFor_eq (c : Config) (node : Text) (s : Option Text) :
    c.setStorageFor node s = { c with nodes := (c.setStorageFor node s).nodes } := by
  cases s with
  | some s => rfl
  | none =>
    unfold setStorageFor
    cases c.nodes[node]? with
    | none => rfl
    | some n =>
      dsimp only
      split_ifs <;> rfl

theorem setStorageFor_template (c : Config) (node : Text) (s : Option Text) :
    (c.setStorageFor node s).template = c.template := by
  rw [setStorageFor_eq]

theorem setStorageFor_defaults (c : Config) (node : Text) (s : Option Text) :
    (c.setStorageFor node s).defaults = c.defaults := by
  rw [setStorageFor_eq]

theorem storageFor_setStorageFor : (c.setStorageFor node s).storageFor node = s := by
  cases s with
  | some s => simp [setStorageFor, storageFor]
  | none =>
    unfold setStorageFor
    cases h : c.nodes[node]? with
    | none => simp [storageFor, h]
    | some n => simp [storageFor]

theorem storageFor_setStorageFor_of_ne (h : node' ≠ node) :
    (c.setStorageFor node s).storageFor node' = c.storageFor node' := by
  have hne : ¬ compare node node' = .eq := fun heq => h (Std.LawfulEqCmp.eq_of_compare heq).symm
  cases s with
  | some s => simp [setStorageFor, storageFor, Std.ExtTreeMap.getElem?_insert, hne]
  | none =>
    unfold setStorageFor
    cases c.nodes[node]? with
    | none => rfl
    | some n => simp [storageFor, Std.ExtTreeMap.getElem?_erase, hne]

/-- **The write rule of the store.** -/
theorem value_put (k : ConfigKey) (v : k.Value) : (c.put k v).value k = v := by
  cases k with
  | storage node => exact storageFor_setStorageFor
  | _ => rfl

theorem value_put_of_ne {k k' : ConfigKey} (h : k' ≠ k) (v : k.Value) :
    (c.put k v).value k' = c.value k' := by
  cases k with
  | storage node =>
    cases k' with
    | storage node' => exact storageFor_setStorageFor_of_ne fun heq => h (by rw [heq])
    | templateStorage => exact congrArg Template.storage (setStorageFor_template c node v)
    | templateBase => exact congrArg Template.base (setStorageFor_template c node v)
    | owner => exact congrArg Defaults.owner (setStorageFor_defaults c node v)
    | bridge => exact congrArg Defaults.bridge (setStorageFor_defaults c node v)
    | cores => exact congrArg Defaults.cores (setStorageFor_defaults c node v)
    | memory => exact congrArg Defaults.memory (setStorageFor_defaults c node v)
    | rootfsSize => exact congrArg Defaults.rootfsSize (setStorageFor_defaults c node v)
  | _ =>
    cases k' with
    | storage node' => rfl
    | _ => first | rfl | exact absurd rfl h

end Config

/-! ### What the commands change -/

/-- `u32::from_str` and `u64::from_str`: an optional `+`, then digits, up to the first one too many. -/
def parseUnsigned (bits : ℕ) (s : Text) : Result ℕ :=
  let digits := if s.head? = some '+' then s.tail else s
  let run := digits.takeWhile isDigit
  if s = [] then bail "cannot parse integer from empty string"
  else if 2 ^ bits ≤ parseNat run then bail "number too large to fit in target type"
  else if run = [] ∨ run ≠ digits then bail "invalid digit found in string"
  else .ok (parseNat run)

/-- The keys of `KEYS`. -/
def configKeys : List Text :=
  ["storage", "template-storage", "template-base", "owner", "bridge", "cores", "memory", "rootfs-size"]

def unknownKey {α : Type} (key : Text) : Result α :=
  bail ("unknown key '" ++ key ++ "'; one of: " ++ joined configKeys)

/-- `set`, between its load and its save. -/
def setKey (c : Config) (node key value : Text) : Result Config :=
  if key = "storage" then .ok (c.setStorageFor node (some value))
  else if key = "template-storage" then .ok { c with template.storage := some value }
  else if key = "template-base" then .ok { c with template.base := value }
  else if key = "owner" then do
    let _ ← splitOwner value
    .ok { c with defaults.owner := value }
  else if key = "bridge" then .ok { c with defaults.bridge := value }
  else if key = "cores" then do
    let n ← parseUnsigned 32 value
    .ok { c with defaults.cores := n }
  else if key = "memory" then do
    let n ← parseUnsigned 64 value
    .ok { c with defaults.memory := n }
  else if key = "rootfs-size" then do
    let s ← Size.fromStr value
    .ok { c with defaults.rootfsSize := s }
  else unknownKey key

/-- `unset`, between its load and its save. -/
def unsetKey (c : Config) (node key : Text) : Result Config :=
  let d := Config.default
  if key = "storage" then .ok (c.setStorageFor node none)
  else if key = "template-storage" then .ok { c with template.storage := none }
  else if key = "template-base" then .ok { c with template.base := d.template.base }
  else if key = "owner" then .ok { c with defaults.owner := d.defaults.owner }
  else if key = "bridge" then .ok { c with defaults.bridge := d.defaults.bridge }
  else if key = "cores" then .ok { c with defaults.cores := d.defaults.cores }
  else if key = "memory" then .ok { c with defaults.memory := d.defaults.memory }
  else if key = "rootfs-size" then .ok { c with defaults.rootfsSize := d.defaults.rootfsSize }
  else unknownKey key

/-- What `new` passes to `update`: the answers it was told to store. -/
def storeAnswers (c : Config) (node : Text) (templateStorage storage : Option Text) : Config :=
  let c := templateStorage.elim c fun s => { c with template.storage := some s }
  storage.elim c fun s => c.setStorageFor node (some s)

/-- What `setKey` puts under which key. -/
def setPuts (node key value : Text) : Result (List ((k : ConfigKey) × k.Value)) :=
  if key = "storage" then .ok [⟨.storage node, some value⟩]
  else if key = "template-storage" then .ok [⟨.templateStorage, some value⟩]
  else if key = "template-base" then .ok [⟨.templateBase, value⟩]
  else if key = "owner" then do
    let _ ← splitOwner value
    .ok [⟨.owner, value⟩]
  else if key = "bridge" then .ok [⟨.bridge, value⟩]
  else if key = "cores" then do
    let n ← parseUnsigned 32 value
    .ok [⟨.cores, n⟩]
  else if key = "memory" then do
    let n ← parseUnsigned 64 value
    .ok [⟨.memory, n⟩]
  else if key = "rootfs-size" then do
    let s ← Size.fromStr value
    .ok [⟨.rootfsSize, s⟩]
  else unknownKey key

def unsetPuts (node key : Text) : Result (List ((k : ConfigKey) × k.Value)) :=
  let d := Config.default
  if key = "storage" then .ok [⟨.storage node, none⟩]
  else if key = "template-storage" then .ok [⟨.templateStorage, none⟩]
  else if key = "template-base" then .ok [⟨.templateBase, d.template.base⟩]
  else if key = "owner" then .ok [⟨.owner, d.defaults.owner⟩]
  else if key = "bridge" then .ok [⟨.bridge, d.defaults.bridge⟩]
  else if key = "cores" then .ok [⟨.cores, d.defaults.cores⟩]
  else if key = "memory" then .ok [⟨.memory, d.defaults.memory⟩]
  else if key = "rootfs-size" then .ok [⟨.rootfsSize, d.defaults.rootfsSize⟩]
  else unknownKey key

/-- A change of the stored choices: `config set`, `config unset`, or what `new` remembers of the
answers it was given. -/
inductive ConfigChange where
  | set (node key value : Text) : ConfigChange
  | unset (node key : Text) : ConfigChange
  | answers (node : Text) (templateStorage storage : Option Text) : ConfigChange

namespace ConfigChange

/-- The change to the config that was loaded. -/
def change (c : Config) : ConfigChange → Result Config
  | .set node key value => setKey c node key value
  | .unset node key => unsetKey c node key
  | .answers node templateStorage storage => .ok (storeAnswers c node templateStorage storage)

/-- What it puts under which key. -/
def puts : ConfigChange → Result (List ((k : ConfigKey) × k.Value))
  | .set node key value => setPuts node key value
  | .unset node key => unsetPuts node key
  | .answers node templateStorage storage =>
    .ok ((templateStorage.map fun s => ⟨.templateStorage, some s⟩).toList ++
      (storage.map fun s => ⟨.storage node, some s⟩).toList)

/-- One key after another, on both sides. -/
theorem ite_eq_bind {α β : Type} {p : Prop} [Decidable p] {f : α → Result β} {a a' : Result α}
    {b b' : Result β} (h : b = a >>= f) (h' : b' = a' >>= f) :
    (if p then b else b') = (if p then a else a') >>= f := by
  rw [h, h']
  split_ifs <;> rfl

/-- **A change is what it puts (proved).** -/
theorem change_eq_puts (w : ConfigChange) (c : Config) :
    w.change c = w.puts >>= fun ps => .ok (ps.foldl (fun c p => c.put p.1 p.2) c) := by
  cases w with
  | set node key value =>
    rw [change, puts, setKey, setPuts]
    refine ite_eq_bind rfl (ite_eq_bind rfl (ite_eq_bind rfl (ite_eq_bind ?_ (ite_eq_bind rfl
      (ite_eq_bind ?_ (ite_eq_bind ?_ (ite_eq_bind ?_ rfl)))))))
    · cases splitOwner value <;> rfl
    · cases parseUnsigned 32 value <;> rfl
    · cases parseUnsigned 64 value <;> rfl
    · cases Size.fromStr value <;> rfl
  | unset node key =>
    rw [change, puts, unsetKey, unsetPuts]
    exact ite_eq_bind rfl (ite_eq_bind rfl (ite_eq_bind rfl (ite_eq_bind rfl (ite_eq_bind rfl
      (ite_eq_bind rfl (ite_eq_bind rfl (ite_eq_bind rfl rfl)))))))
  | answers node templateStorage storage => cases templateStorage <;> cases storage <;> rfl

end ConfigChange

/-! ### Structs as mappings -/

/-- The fields of a struct in order, each with what is written of it, if anything is. -/
abbrev Fields := List (Text × Option Value)

def written (skip : Bool) (v : Value) : Option Value := if skip then none else some v

def writeFields (fs : Fields) : Mapping := fs.filterMap fun f => f.2.map fun v => (.string f.1, v)

/-- The names of the fields a struct has, in a message. -/
def expectedFields : List Text → Text
  | [a, b] => "expected `" ++ a ++ "` or `" ++ b ++ "`"
  | [a] => "expected `" ++ a ++ "`"
  | names => "expected one of " ++ joined (names.map fun a => ("`" ++ a ++ "`" : Text))

/-- One entry of a struct: no name twice, and no other names. -/
def readStructField (known seen : List Text) (e : Value × Value) : Result (List Text) :=
  match e.1.asStr with
  | none => bail ("invalid type: " ++ unexpected e.1.untag ++ ", expected field identifier")
  | some k =>
    if k ∈ seen then bail ("duplicate field `" ++ k ++ "`")
    else if k ∈ known then .ok (k :: seen)
    else bail ("unknown field `" ++ k ++ "`, " ++ expectedFields known)

/-- The fields a struct is read from; nothing at all is none of them. -/
def structFields (known : List Text) (v : Value) : Result Mapping :=
  match v.untag with
  | .mapping m => do
    let _ ← m.foldlM (readStructField known) []
    .ok m
  | .null => .ok []
  | other => bail ("invalid type: " ++ unexpected other ++ ", expected struct")

/-- One field: its default when it is not there. -/
def fieldOr {α : Type} (m : Mapping) (k : Text) (d : α) (read : Value → Result α) : Result α :=
  (m.get k).elim (.ok d) read

section Fields

variable {α : Type} {fs : Fields} {k : Text} {o : Option Value} {d a : α} {read : Value → Result α}

theorem get_writeFields (hnd : (fs.map Prod.fst).Nodup) (h : (k, o) ∈ fs) :
    (writeFields fs).get k = o := by
  induction fs with
  | nil => exact absurd h List.not_mem_nil
  | cons f fs ih =>
    obtain ⟨hout, hnd'⟩ := List.nodup_cons.mp hnd
    have hother : ∀ fs : Fields, k ∉ fs.map Prod.fst → (writeFields fs).get k = none := by
      intro fs hk
      rw [Mapping.get, Option.map_eq_none_iff, List.find?_eq_none]
      intro e he hkey
      obtain ⟨⟨k', o'⟩, hf, hv⟩ := List.mem_filterMap.mp he
      obtain ⟨v, -, rfl⟩ := Option.map_eq_some_iff.mp hv
      obtain rfl : k' = k := of_decide_eq_true hkey
      exact hk (List.mem_map.mpr ⟨_, hf, rfl⟩)
    rcases List.mem_cons.mp h with rfl | hrest
    · cases o with
      | none => exact hother fs hout
      | some v => simp [writeFields, Mapping.get, Value.isKey]
    · have hne : f.1 ≠ k := by
        rintro rfl
        exact hout (List.mem_map.mpr ⟨_, hrest, rfl⟩)
      obtain ⟨k', o'⟩ := f
      cases o' with
      | none => exact ih hnd' hrest
      | some v =>
        have hget : (writeFields ((k', some v) :: fs)).get k = (writeFields fs).get k := by
          simp [writeFields, Mapping.get, Value.isKey, hne]
        rw [hget]
        exact ih hnd' hrest

theorem fieldOr_writeFields (hnd : (fs.map Prod.fst).Nodup) (h : (k, o) ∈ fs)
    (hread : o.elim (.ok d) read = .ok a) : fieldOr (writeFields fs) k d read = .ok a := by
  rw [fieldOr, get_writeFields hnd h]
  exact hread

/-- A field that is skipped when it is the default, and is read as it was written. -/
theorem elim_written {skip : Bool} {v : Value} (hskip : skip = true → d = a)
    (hread : skip = false → read v = .ok a) : (written skip v).elim (.ok d) read = .ok a := by
  cases skip with
  | true => exact congrArg Except.ok (hskip rfl)
  | false => exact hread rfl

theorem readStructFields_writeFields {known seen : List Text} (hknown : ∀ f ∈ fs, f.1 ∈ known)
    (hnd : (fs.map Prod.fst).Nodup) (hseen : ∀ f ∈ fs, f.1 ∉ seen) :
    ∃ seen', (writeFields fs).foldlM (readStructField known) seen = .ok seen' := by
  induction fs generalizing seen with
  | nil => exact ⟨seen, rfl⟩
  | cons f fs ih =>
    obtain ⟨k, o⟩ := f
    obtain ⟨hout, hnd'⟩ := List.nodup_cons.mp hnd
    have hknown' : ∀ f ∈ fs, f.1 ∈ known := fun f hf => hknown f (List.mem_cons_of_mem _ hf)
    have hseen' : ∀ f ∈ fs, f.1 ∉ seen := fun f hf => hseen f (List.mem_cons_of_mem _ hf)
    cases o with
    | none => exact ih hknown' hnd' hseen'
    | some v =>
      have hstep : readStructField known seen (.string k, v) = .ok (k :: seen) := by
        have hk := hknown _ List.mem_cons_self
        have hks := hseen _ List.mem_cons_self
        show (if k ∈ seen then _ else if k ∈ known then _ else _) = _
        rw [if_neg hks, if_pos hk]
      have hfresh : ∀ f ∈ fs, f.1 ∉ k :: seen := fun f hf hmem => by
        rcases List.mem_cons.mp hmem with rfl | hmem
        · exact hout (List.mem_map.mpr ⟨f, hf, rfl⟩)
        · exact hseen' f hf hmem
      obtain ⟨seen', hrest⟩ := ih hknown' hnd' hfresh
      refine ⟨seen', ?_⟩
      show (((.string k, v) :: writeFields fs).foldlM (readStructField known) seen) = .ok seen'
      rw [List.foldlM_cons, hstep]
      exact hrest

/-- **A struct's fields are read as they were written (proved).** -/
theorem structFields_writeFields (hnd : (fs.map Prod.fst).Nodup) :
    structFields (fs.map Prod.fst) (.mapping (writeFields fs)) = .ok (writeFields fs) := by
  have hknown : ∀ f ∈ fs, f.1 ∈ fs.map Prod.fst := fun f hf => List.mem_map.mpr ⟨f, hf, rfl⟩
  obtain ⟨seen, h⟩ := readStructFields_writeFields hknown hnd
    (show ∀ f ∈ fs, f.1 ∉ [] from fun _ _ => List.not_mem_nil)
  show ((writeFields fs).foldlM (readStructField _) [] >>= fun _ => .ok (writeFields fs)) = _
  rw [h]
  rfl

end Fields

/-! ### A config as a value tree -/

def readString (v : Value) : Result Text :=
  match v.asStr with
  | some s => .ok s
  | none => bail ("invalid type: " ++ unexpected v.untag ++ ", expected a string")

def readUnsigned (bits : ℕ) (v : Value) : Result ℕ :=
  match v.untag with
  | .number (.int (.ofNat n)) =>
    if n < 2 ^ bits then .ok n
    else bail ("invalid value: " ++ unexpected v.untag ++ ", expected u" ++ dec bits)
  | other => bail ("invalid type: " ++ unexpected other ++ ", expected u" ++ dec bits)

def readTexts (v : Value) : Result (List Text) :=
  match v.untag with
  | .sequence vs => vs.mapM readString
  | other => bail ("invalid type: " ++ unexpected other ++ ", expected a sequence")

/-- `Deserialize for Size`. -/
def Size.ofValue : Value → Result Size
  | .string s => Size.fromStr s
  | .number n => Size.fromStr n.text
  | _ => bail "size must be a string like 20G"

def natValue (n : ℕ) : Value := .number (.int n)

def textsValue (ts : List Text) : Value := .sequence (ts.map .string)

def Template.fields (t : Template) : Fields :=
  [("storage", t.storage.map .string),
    ("base", written (t.base = Config.default.template.base) (.string t.base))]

def Template.toValue (t : Template) : Value := .mapping (writeFields t.fields)

def Template.ofValue (v : Value) : Result Template := do
  let m ← structFields ["storage", "base"] v
  let storage ← fieldOr m "storage" none readText
  let base ← fieldOr m "base" Config.default.template.base readString
  .ok { storage, base }

def Defaults.fields (s : Defaults) : Fields :=
  let d := Config.default.defaults
  [("rootfs_size", written (s.rootfsSize = d.rootfsSize) (.string s.rootfsSize.display)),
    ("owner", written (s.owner = d.owner) (.string s.owner)),
    ("bridge", written (s.bridge = d.bridge) (.string s.bridge)),
    ("cores", written (s.cores = d.cores) (natValue s.cores)),
    ("memory", written (s.memory = d.memory) (natValue s.memory))]

def Defaults.toValue (s : Defaults) : Value := .mapping (writeFields s.fields)

def Defaults.ofValue (v : Value) : Result Defaults := do
  let d := Config.default.defaults
  let m ← structFields ["rootfs_size", "owner", "bridge", "cores", "memory"] v
  let rootfsSize ← fieldOr m "rootfs_size" d.rootfsSize Size.ofValue
  let owner ← fieldOr m "owner" d.owner readString
  let bridge ← fieldOr m "bridge" d.bridge readString
  let cores ← fieldOr m "cores" d.cores (readUnsigned 32)
  let memory ← fieldOr m "memory" d.memory (readUnsigned 64)
  .ok { rootfsSize, owner, bridge, cores, memory }

def NodeOverrides.fields (n : NodeOverrides) : Fields := [("storage", n.storage.map .string)]

def NodeOverrides.toValue (n : NodeOverrides) : Value := .mapping (writeFields n.fields)

def NodeOverrides.ofValue (v : Value) : Result NodeOverrides := do
  let m ← structFields ["storage"] v
  let storage ← fieldOr m "storage" none readText
  .ok { storage }

/-- A `BTreeMap`, in the order of its keys. -/
def nodesValue (nodes : Std.ExtTreeMap Text NodeOverrides) : Value :=
  .mapping (nodes.toList.map fun e => (.string e.1, e.2.toValue))

def readNode (nodes : Std.ExtTreeMap Text NodeOverrides) (e : Value × Value) :
    Result (Std.ExtTreeMap Text NodeOverrides) := do
  let node ← readString e.1
  let n ← NodeOverrides.ofValue e.2
  .ok (nodes.insert node n)

def readNodes (v : Value) : Result (Std.ExtTreeMap Text NodeOverrides) :=
  match v.untag with
  | .mapping m => m.foldlM readNode ∅
  | other => bail ("invalid type: " ++ unexpected other ++ ", expected a map")

def Limits.fields (l : Limits) : Fields :=
  [("bind_roots", written (l.bindRoots = []) (textsValue l.bindRoots)),
    ("storages", written (l.storages = []) (textsValue l.storages)),
    ("max_disk_gib", written (l.maxDiskGib = Config.default.limits.maxDiskGib) (natValue l.maxDiskGib))]

def Limits.toValue (l : Limits) : Value := .mapping (writeFields l.fields)

def Limits.ofValue (v : Value) : Result Limits := do
  let m ← structFields ["bind_roots", "storages", "max_disk_gib"] v
  let bindRoots ← fieldOr m "bind_roots" [] readTexts
  let storages ← fieldOr m "storages" [] readTexts
  let maxDiskGib ← fieldOr m "max_disk_gib" Config.default.limits.maxDiskGib (readUnsigned 64)
  .ok { bindRoots, storages, maxDiskGib }

def DaemonConfig.fields (d : DaemonConfig) : Fields :=
  [("interval", written (d.interval = Config.default.daemon.interval) (natValue d.interval)),
    ("full_every", written (d.fullEvery = Config.default.daemon.fullEvery) (natValue d.fullEvery))]

def DaemonConfig.toValue (d : DaemonConfig) : Value := .mapping (writeFields d.fields)

def DaemonConfig.ofValue (v : Value) : Result DaemonConfig := do
  let m ← structFields ["interval", "full_every"] v
  let interval ← fieldOr m "interval" Config.default.daemon.interval (readUnsigned 64)
  let fullEvery ← fieldOr m "full_every" Config.default.daemon.fullEvery (readUnsigned 64)
  .ok { interval, fullEvery }

namespace Config

def fields (c : Config) : Fields :=
  [("template", written (c.template = default.template) c.template.toValue),
    ("defaults", written (c.defaults = default.defaults) c.defaults.toValue),
    ("nodes", written (c.nodes = ∅) (nodesValue c.nodes)),
    ("limits", written (c.limits = default.limits) c.limits.toValue),
    ("daemon", written (c.daemon = default.daemon) c.daemon.toValue)]

/-- `Serialize`: what differs from the defaults. -/
def toValue (c : Config) : Value := .mapping (writeFields c.fields)

/-- `Deserialize`, of a value tree. -/
def ofValue (v : Value) : Result Config := do
  let m ← structFields ["template", "defaults", "nodes", "limits", "daemon"] v
  let template ← fieldOr m "template" default.template Template.ofValue
  let defaults ← fieldOr m "defaults" default.defaults Defaults.ofValue
  let nodes ← fieldOr m "nodes" ∅ readNodes
  let limits ← fieldOr m "limits" default.limits Limits.ofValue
  let daemon ← fieldOr m "daemon" default.daemon DaemonConfig.ofValue
  .ok { template, defaults, nodes, limits, daemon }

end Config

/-! ### What a value tree reads back as -/

/-- The numbers are those of the source's types, and a size is never zero. -/
structure Config.Typed (c : Config) : Prop where
  rootfsSize : 0 < c.defaults.rootfsSize.bytes
  cores : c.defaults.cores < 2 ^ 32
  memory : c.defaults.memory < 2 ^ 64
  maxDiskGib : c.limits.maxDiskGib < 2 ^ 64
  interval : c.daemon.interval < 2 ^ 64
  fullEvery : c.daemon.fullEvery < 2 ^ 64

/-- A config whose size was printed and read again. -/
def Config.reread (c : Config) : Config :=
  { c with defaults.rootfsSize := c.defaults.rootfsSize.reread }

section ReadBack

variable {α : Type} {fs : Fields} {k : Text} {d : α} {read : Value → Result α}

theorem readUnsigned_natValue {bits n : ℕ} (h : n < 2 ^ bits) :
    readUnsigned bits (natValue n) = .ok n := if_pos h

theorem readTexts_textsValue (ts : List Text) : readTexts (textsValue ts) = .ok ts := by
  show (ts.map Value.string).mapM readString = .ok ts
  induction ts with
  | nil => rfl
  | cons t ts ih =>
    rw [List.map_cons, List.mapM_cons, ih]
    rfl

/-- An optional text is read as it was written. -/
theorem fieldOr_optional {o : Option Text} (hnd : (fs.map Prod.fst).Nodup)
    (h : (k, o.map Value.string) ∈ fs) : fieldOr (writeFields fs) k none readText = .ok o :=
  fieldOr_writeFields hnd h (by cases o <;> rfl)

theorem fieldOr_string {s : Text} (hnd : (fs.map Prod.fst).Nodup) {d : Text}
    (h : (k, written (s = d) (.string s)) ∈ fs) :
    fieldOr (writeFields fs) k d readString = .ok s :=
  fieldOr_writeFields hnd h (elim_written (fun hd => (of_decide_eq_true hd).symm) fun _ => rfl)

theorem fieldOr_unsigned {bits n d : ℕ} (hnd : (fs.map Prod.fst).Nodup)
    (h : (k, written (n = d) (natValue n)) ∈ fs) (hn : n < 2 ^ bits) :
    fieldOr (writeFields fs) k d (readUnsigned bits) = .ok n :=
  fieldOr_writeFields hnd h
    (elim_written (fun hd => (of_decide_eq_true hd).symm) fun _ => readUnsigned_natValue hn)

theorem fieldOr_texts {ts : List Text} (hnd : (fs.map Prod.fst).Nodup)
    (h : (k, written (ts = []) (textsValue ts)) ∈ fs) :
    fieldOr (writeFields fs) k [] readTexts = .ok ts :=
  fieldOr_writeFields hnd h
    (elim_written (fun hd => (of_decide_eq_true hd).symm) fun _ => readTexts_textsValue ts)

/-- A struct that reads back as `b`, within a struct. -/
theorem fieldOr_struct {β : Type} [DecidableEq β] {a b d : β} {v : Value} {read : Value → Result β}
    (hnd : (fs.map Prod.fst).Nodup) (h : (k, written (a = d) v) ∈ fs) (hd : a = d → d = b)
    (hread : read v = .ok b) : fieldOr (writeFields fs) k d read = .ok b :=
  fieldOr_writeFields hnd h (elim_written (fun ha => hd (of_decide_eq_true ha)) fun _ => hread)

theorem Template.ofValue_toValue (t : Template) : Template.ofValue t.toValue = .ok t := by
  have hnd : (t.fields.map Prod.fst).Nodup := by
    show (["storage", "base"] : List Text).Nodup
    decide
  have hm : structFields ["storage", "base"] t.toValue = .ok (writeFields t.fields) :=
    structFields_writeFields hnd
  have hstorage := fieldOr_optional hnd (.head _)
  have hbase := fieldOr_string hnd (.tail _ (.head _))
  rw [ofValue, hm, ok_bind, hstorage, ok_bind, hbase]
  rfl

theorem Defaults.ofValue_toValue {s : Defaults} (hsize : 0 < s.rootfsSize.bytes)
    (hcores : s.cores < 2 ^ 32) (hmemory : s.memory < 2 ^ 64) :
    Defaults.ofValue s.toValue = .ok { s with rootfsSize := s.rootfsSize.reread } := by
  have hnd : (s.fields.map Prod.fst).Nodup := by
    show (["rootfs_size", "owner", "bridge", "cores", "memory"] : List Text).Nodup
    decide
  have hm : structFields ["rootfs_size", "owner", "bridge", "cores", "memory"] s.toValue
      = .ok (writeFields s.fields) := structFields_writeFields hnd
  have hrootfs := fieldOr_struct hnd (.head _)
    (show s.rootfsSize = _ → _ = s.rootfsSize.reread from fun h => by rw [h]; decide)
    (show Size.ofValue _ = _ from Size.fromStr_display _ hsize)
  have howner := fieldOr_string hnd (.tail _ (.head _))
  have hbridge := fieldOr_string hnd (.tail _ (.tail _ (.head _)))
  have hcores := fieldOr_unsigned hnd (.tail _ (.tail _ (.tail _ (.head _)))) hcores
  have hmemory := fieldOr_unsigned hnd (.tail _ (.tail _ (.tail _ (.tail _ (.head _))))) hmemory
  rw [ofValue, hm, ok_bind, hrootfs, ok_bind, howner, ok_bind, hbridge, ok_bind, hcores, ok_bind,
    hmemory]
  rfl

theorem NodeOverrides.ofValue_toValue (n : NodeOverrides) :
    NodeOverrides.ofValue n.toValue = .ok n := by
  have hnd : (n.fields.map Prod.fst).Nodup := by
    show (["storage"] : List Text).Nodup
    decide
  have hm : structFields ["storage"] n.toValue = .ok (writeFields n.fields) :=
    structFields_writeFields hnd
  have hstorage := fieldOr_optional hnd (.head _)
  rw [ofValue, hm, ok_bind, hstorage]
  rfl

/-- A map that is written in the order of its keys is read as the same map. -/
theorem ofList_toList (nodes : Std.ExtTreeMap Text NodeOverrides) :
    Std.ExtTreeMap.ofList nodes.toList = nodes := by
  refine Std.ExtTreeMap.ext_getElem? fun k => ?_
  cases h : nodes[k]? with
  | some n =>
    exact Std.ExtTreeMap.getElem?_ofList_of_mem Std.ReflCmp.compare_self
      Std.ExtTreeMap.distinct_keys_toList (Std.ExtTreeMap.mem_toList_iff_getElem?_eq_some.mpr h)
  | none =>
    refine Std.ExtTreeMap.getElem?_ofList_of_contains_eq_false ?_
    rw [Bool.eq_false_iff]
    intro hmem
    obtain ⟨⟨k', n⟩, he, rfl⟩ := List.mem_map.mp (List.contains_iff_mem.mp hmem)
    rw [Std.ExtTreeMap.mem_toList_iff_getElem?_eq_some.mp he] at h
    cases h

theorem readNodes_nodesValue (nodes : Std.ExtTreeMap Text NodeOverrides) :
    readNodes (nodesValue nodes) = .ok nodes := by
  have hfold : ∀ (es : List (Text × NodeOverrides)) (acc : Std.ExtTreeMap Text NodeOverrides),
      (es.map fun e => ((.string e.1, e.2.toValue) : Value × Value)).foldlM readNode acc
        = .ok (es.foldl (fun acc e => acc.insert e.1 e.2) acc) := by
    intro es
    induction es with
    | nil => exact fun _ => rfl
    | cons e es ih =>
      intro acc
      have hstep : readNode acc (.string e.1, e.2.toValue) = .ok (acc.insert e.1 e.2) := by
        show (NodeOverrides.ofValue e.2.toValue >>= fun n => .ok (acc.insert e.1 n)) = _
        rw [NodeOverrides.ofValue_toValue]
        rfl
      rw [List.map_cons, List.foldlM_cons, hstep]
      exact ih _
  show (nodes.toList.map _).foldlM readNode ∅ = _
  rw [hfold, ← Std.ExtTreeMap.ofList_eq_foldl, ofList_toList]

theorem Limits.ofValue_toValue {l : Limits} (h : l.maxDiskGib < 2 ^ 64) :
    Limits.ofValue l.toValue = .ok l := by
  have hnd : (l.fields.map Prod.fst).Nodup := by
    show (["bind_roots", "storages", "max_disk_gib"] : List Text).Nodup
    decide
  have hm : structFields ["bind_roots", "storages", "max_disk_gib"] l.toValue
      = .ok (writeFields l.fields) := structFields_writeFields hnd
  have hroots := fieldOr_texts hnd (.head _)
  have hstorages := fieldOr_texts hnd (.tail _ (.head _))
  have hmax := fieldOr_unsigned hnd (.tail _ (.tail _ (.head _))) h
  rw [ofValue, hm, ok_bind, hroots, ok_bind, hstorages, ok_bind, hmax]
  rfl

theorem DaemonConfig.ofValue_toValue {d : DaemonConfig} (hinterval : d.interval < 2 ^ 64)
    (hfull : d.fullEvery < 2 ^ 64) : DaemonConfig.ofValue d.toValue = .ok d := by
  have hnd : (d.fields.map Prod.fst).Nodup := by
    show (["interval", "full_every"] : List Text).Nodup
    decide
  have hm : structFields ["interval", "full_every"] d.toValue = .ok (writeFields d.fields) :=
    structFields_writeFields hnd
  have hinterval' := fieldOr_unsigned hnd (.head _) hinterval
  have hfull' := fieldOr_unsigned hnd (.tail _ (.head _)) hfull
  rw [ofValue, hm, ok_bind, hinterval', ok_bind, hfull']
  rfl

/-- **The tree of a config reads back (proved)**, with its size printed and read again. -/
theorem ofValue_toValue {c : Config} (h : c.Typed) : Config.ofValue c.toValue = .ok c.reread := by
  have hnd : (c.fields.map Prod.fst).Nodup := by
    show (["template", "defaults", "nodes", "limits", "daemon"] : List Text).Nodup
    decide
  have hm : structFields ["template", "defaults", "nodes", "limits", "daemon"] c.toValue
      = .ok (writeFields c.fields) := structFields_writeFields hnd
  have htemplate := fieldOr_struct hnd (.head _) Eq.symm (Template.ofValue_toValue c.template)
  have hdefaults := fieldOr_struct hnd (.tail _ (.head _)) (fun hd => by rw [hd]; decide)
    (Defaults.ofValue_toValue h.rootfsSize h.cores h.memory)
  have hnodes := fieldOr_struct hnd (.tail _ (.tail _ (.head _))) Eq.symm
    (readNodes_nodesValue c.nodes)
  have hlimits := fieldOr_struct hnd (.tail _ (.tail _ (.tail _ (.head _)))) Eq.symm
    (Limits.ofValue_toValue h.maxDiskGib)
  have hdaemon := fieldOr_struct hnd (.tail _ (.tail _ (.tail _ (.tail _ (.head _))))) Eq.symm
    (DaemonConfig.ofValue_toValue h.interval h.fullEvery)
  rw [Config.ofValue, hm, ok_bind, htemplate, ok_bind, hdefaults, ok_bind, hnodes, ok_bind, hlimits,
    ok_bind, hdaemon]
  rfl

end ReadBack

/-! ### What a change keeps -/

namespace ConfigChange

/-- The keys a change is about. -/
def keys (w : ConfigChange) : List ConfigKey := (w.puts.toOption.getD []).map Sigma.fst

/-- A size that is set is a whole number of KiB, or as large as a size can be. -/
def Whole : ConfigChange → Prop
  | .set _ key value => key = "rootfs-size" → ∀ s, Size.fromStr value = .ok s →
      s.bytes % Size.KIB = 0 ∨ s.bytes = 2 ^ 64 - 1
  | _ => True

variable {w : ConfigChange} {c c' : Config}

theorem exists_puts (h : w.change c = .ok c') :
    ∃ ps, w.puts = .ok ps ∧ c' = ps.foldl (fun c p => c.put p.1 p.2) c := by
  rw [change_eq_puts] at h
  obtain ⟨ps, hps, h⟩ := bind_eq_ok.mp h
  exact ⟨ps, hps, (Except.ok.inj h).symm⟩

theorem keys_of_puts {ps : List ((k : ConfigKey) × k.Value)} (h : w.puts = .ok ps) :
    w.keys = ps.map Sigma.fst := by
  rw [keys, h]
  rfl

/-- Other keys keep their values. -/
theorem value_puts_of_not_mem {ps : List ((k : ConfigKey) × k.Value)} {k : ConfigKey}
    (hk : k ∉ ps.map Sigma.fst) (c : Config) :
    (ps.foldl (fun c p => c.put p.1 p.2) c).value k = c.value k := by
  induction ps generalizing c with
  | nil => rfl
  | cons p ps ih =>
    rw [List.map_cons, List.mem_cons, not_or] at hk
    rw [List.foldl_cons, ih hk.2, Config.value_put_of_ne hk.1]

/-- **A change leaves every other key (proved).** -/
theorem value_change_of_not_mem (h : w.change c = .ok c') {k : ConfigKey} (hk : k ∉ w.keys) :
    c'.value k = c.value k := by
  obtain ⟨ps, hps, rfl⟩ := exists_puts h
  rw [keys_of_puts hps] at hk
  exact value_puts_of_not_mem hk c

/-! ### Values that fit -/

/-- The value is one of the source's type. -/
def Fits : (k : ConfigKey) → k.Value → Prop
  | .cores, n => (show ℕ from n) < 2 ^ 32
  | .memory, n => (show ℕ from n) < 2 ^ 64
  | .rootfsSize, s => 0 < (show Size from s).bytes
  | _, _ => True

theorem parseUnsigned_lt {bits n : ℕ} {s : Text} (h : parseUnsigned bits s = .ok n) : n < 2 ^ bits := by
  unfold parseUnsigned at h
  generalize (if s.head? = some '+' then s.tail else s) = digits at h
  dsimp only at h
  split_ifs at h with h₁ h₂ h₃
  · exact absurd h bail_ne_ok
  · exact absurd h bail_ne_ok
  · exact absurd h bail_ne_ok
  · cases h
    exact not_le.mp h₂

/-- What is put under which key, by `set` and by `unset`. -/
inductive Put (node : Text) : (k : ConfigKey) × k.Value → Prop where
  | storage (s : Option Text) : Put node ⟨.storage node, s⟩
  | templateStorage (s : Option Text) : Put node ⟨.templateStorage, s⟩
  | templateBase (s : Text) : Put node ⟨.templateBase, s⟩
  | owner (s : Text) : Put node ⟨.owner, s⟩
  | bridge (s : Text) : Put node ⟨.bridge, s⟩
  | cores {n : ℕ} : n < 2 ^ 32 → Put node ⟨.cores, n⟩
  | memory {n : ℕ} : n < 2 ^ 64 → Put node ⟨.memory, n⟩
  | rootfsSize {s : Size} : 0 < s.bytes → Put node ⟨.rootfsSize, s⟩

theorem put_of_setPuts {node key value : Text} {ps : List ((k : ConfigKey) × k.Value)}
    (h : setPuts node key value = .ok ps) : ∃ p, ps = [p] ∧ Put node p ∧
      ∀ s : Size, p = ⟨.rootfsSize, s⟩ → key = "rootfs-size" ∧ Size.fromStr value = .ok s := by
  unfold setPuts at h
  split_ifs at h with h₁ h₂ h₃ h₄ h₅ h₆ h₇ h₈
  · cases h
    exact ⟨_, rfl, .storage _, nofun⟩
  · cases h
    exact ⟨_, rfl, .templateStorage _, nofun⟩
  · cases h
    exact ⟨_, rfl, .templateBase _, nofun⟩
  · obtain ⟨_, -, h⟩ := bind_eq_ok.mp h
    cases h
    exact ⟨_, rfl, .owner _, nofun⟩
  · cases h
    exact ⟨_, rfl, .bridge _, nofun⟩
  · obtain ⟨n, hn, h⟩ := bind_eq_ok.mp h
    cases h
    exact ⟨_, rfl, .cores (parseUnsigned_lt hn), nofun⟩
  · obtain ⟨n, hn, h⟩ := bind_eq_ok.mp h
    cases h
    exact ⟨_, rfl, .memory (parseUnsigned_lt hn), nofun⟩
  · obtain ⟨s, hs, h⟩ := bind_eq_ok.mp h
    cases h
    refine ⟨_, rfl, .rootfsSize (Size.fromStr_pos hs), ?_⟩
    rintro _ ⟨⟩
    exact ⟨h₈, hs⟩
  · exact absurd h bail_ne_ok

theorem put_of_unsetPuts {node key : Text} {ps : List ((k : ConfigKey) × k.Value)}
    (h : unsetPuts node key = .ok ps) : ∃ p, ps = [p] ∧ Put node p ∧
      ∀ s : Size, p = ⟨.rootfsSize, s⟩ → s = Config.default.defaults.rootfsSize := by
  unfold unsetPuts at h
  dsimp only at h
  split_ifs at h
  · cases h
    exact ⟨_, rfl, .storage _, nofun⟩
  · cases h
    exact ⟨_, rfl, .templateStorage _, nofun⟩
  · cases h
    exact ⟨_, rfl, .templateBase _, nofun⟩
  · cases h
    exact ⟨_, rfl, .owner _, nofun⟩
  · cases h
    exact ⟨_, rfl, .bridge _, nofun⟩
  · cases h
    exact ⟨_, rfl, .cores (by decide : 2 < 2 ^ 32), nofun⟩
  · cases h
    exact ⟨_, rfl, .memory (by decide : 2048 < 2 ^ 64), nofun⟩
  · cases h
    refine ⟨_, rfl, .rootfsSize (by decide : 0 < 8 * Size.GIB), ?_⟩
    rintro _ ⟨⟩
    rfl
  · exact absurd h bail_ne_ok

theorem Put.fits {node : Text} {p : (k : ConfigKey) × k.Value} (h : Put node p) : Fits p.1 p.2 := by
  cases h with
  | cores h => exact h
  | memory h => exact h
  | rootfsSize h => exact h
  | _ => trivial

theorem fits_puts {ps : List ((k : ConfigKey) × k.Value)} (h : w.puts = .ok ps) :
    ∀ p ∈ ps, Fits p.1 p.2 := by
  cases w with
  | set node key value =>
    obtain ⟨p, rfl, hp, -⟩ := put_of_setPuts h
    exact List.forall_mem_singleton.mpr hp.fits
  | unset node key =>
    obtain ⟨p, rfl, hp, -⟩ := put_of_unsetPuts h
    exact List.forall_mem_singleton.mpr hp.fits
  | answers node templateStorage storage =>
    cases h
    intro p hp
    rcases List.mem_append.mp hp with hp | hp
    · obtain ⟨s, -, rfl⟩ := Option.map_eq_some_iff.mp (Option.mem_toList.mp hp)
      trivial
    · obtain ⟨s, -, rfl⟩ := Option.map_eq_some_iff.mp (Option.mem_toList.mp hp)
      trivial

theorem typed_setStorageFor (h : c.Typed) (node : Text) (s : Option Text) :
    (c.setStorageFor node s).Typed := by
  rw [Config.setStorageFor_eq]
  exact ⟨h.rootfsSize, h.cores, h.memory, h.maxDiskGib, h.interval, h.fullEvery⟩

theorem typed_put (h : c.Typed) {k : ConfigKey} {v : k.Value} (hv : Fits k v) : (c.put k v).Typed := by
  cases k with
  | storage node => exact typed_setStorageFor h node v
  | cores => exact ⟨h.rootfsSize, hv, h.memory, h.maxDiskGib, h.interval, h.fullEvery⟩
  | memory => exact ⟨h.rootfsSize, h.cores, hv, h.maxDiskGib, h.interval, h.fullEvery⟩
  | rootfsSize => exact ⟨hv, h.cores, h.memory, h.maxDiskGib, h.interval, h.fullEvery⟩
  | _ => exact ⟨h.rootfsSize, h.cores, h.memory, h.maxDiskGib, h.interval, h.fullEvery⟩

/-- **A change keeps the types (proved).** -/
theorem typed_change (hc : c.Typed) (h : w.change c = .ok c') : c'.Typed := by
  obtain ⟨ps, hps, rfl⟩ := exists_puts h
  have hfits := fits_puts hps
  clear h hps
  induction ps generalizing c with
  | nil => exact hc
  | cons p ps ih =>
    rw [List.forall_mem_cons] at hfits
    exact ih (typed_put hc hfits.1) hfits.2

end ConfigChange

/-! ### The file -/

def CONFIG_HEADER : Text :=
  "# pve-compose: written by `pve-compose config` and `new`; every key optional.\n"

/-- The YAML of a config; the defaults are nothing at all. -/
def configText (x : External) (c : Config) : Result Text :=
  if c = Config.default then .ok [] else x.toYaml c.toValue

/-- `save_to`: the text of the file. -/
def saveText (x : External) (c : Config) : Result Text := do
  let text ← configText x c
  .ok (CONFIG_HEADER ++ text)

/-- What is relied on of the YAML library. -/
structure ReadsBack (x : External) : Prop where
  /-- A file with nothing but the comment is the default config. -/
  blank : x.configFromYaml CONFIG_HEADER = .ok Config.default
  /-- The value tree of a text is the one it was printed from. -/
  back : ∀ (c : Config) (t : Text), x.toYaml c.toValue = .ok t →
    x.configFromYaml (CONFIG_HEADER ++ t) = Config.ofValue c.toValue
  typed : ∀ t c, x.configFromYaml t = .ok c → c.Typed

theorem typed_default : Config.default.Typed where
  rootfsSize := by decide
  cores := by decide
  memory := by decide
  maxDiskGib := by decide
  interval := by decide
  fullEvery := by decide

section File

variable {x : External} {c : Config} {t : Text} {file : FileRead}

theorem typed_load (hx : ReadsBack x) (h : Config.load x.configFromYaml file = .ok c) : c.Typed := by
  cases file with
  | notFound =>
    cases h
    exact typed_default
  | failed e => cases h
  | text t =>
    rw [Config.load] at h
    split_ifs at h with hblank
    · cases h
      exact typed_default
    · exact hx.typed _ _ (withContext_eq_ok.mp h)

theorem headed_not_blank (u : Text) : Words.strip isSpace (CONFIG_HEADER ++ u) ≠ [] := by
  intro h
  have hd : (CONFIG_HEADER ++ u).dropWhile isSpace = CONFIG_HEADER ++ u := rfl
  rw [Words.strip, hd, List.rdropWhile_eq_nil_iff] at h
  exact absurd (h '#' (List.mem_append_left _ List.mem_cons_self)) (by decide)

/-- **The file reads back (proved)**, with its size printed and read again. -/
theorem load_saveText (hx : ReadsBack x) (hc : c.Typed) (h : saveText x c = .ok t) :
    Config.load x.configFromYaml (.text t) = .ok c.reread := by
  obtain ⟨u, hu, h⟩ := bind_eq_ok.mp h
  cases h
  rw [Config.load, if_neg (headed_not_blank u), withContext_eq_ok]
  unfold configText at hu
  split_ifs at hu with hdefault
  · cases hu
    rw [List.append_nil, hx.blank, hdefault]
    rfl
  · rw [hx.back c u hu, ofValue_toValue hc]

/-! ### One command after another -/

/-- One command: the file is loaded, changed and saved; what is kept of it is the config saved and the
file. -/
def applyChange (x : External) (st : Config × FileRead) (w : ConfigChange) :
    Result (Config × FileRead) := do
  let c ← Config.load x.configFromYaml st.2
  let c ← w.change c
  let t ← saveText x c
  .ok (c, .text t)

/-- The commands, each of which succeeds, from no file at all. -/
def applyChanges (x : External) (ws : List ConfigChange) : Result (Config × FileRead) :=
  ws.foldlM (applyChange x) (Config.default, .notFound)

/-- What a command saved is loaded, and is what was saved before it but for its own keys. -/
structure Restored (x : External) (before : Config) (w : ConfigChange) (after : Config × FileRead) :
    Prop where
  back : Config.load x.configFromYaml after.2 = .ok after.1
  own : ∀ k ∉ w.keys, after.1.value k = before.value k

theorem reread_eq_self_iff {c : Config} :
    c.reread = c ↔ c.defaults.rootfsSize.reread = c.defaults.rootfsSize := by
  constructor
  · intro h
    exact congrArg (fun c : Config => c.defaults.rootfsSize) h
  · intro h
    rw [Config.reread, h]

/-- A change leaves the size, or takes it back to the default, or sets it. -/
theorem rootfsSize_change {w : ConfigChange} {c c' : Config} (h : w.change c = .ok c') :
    c'.defaults.rootfsSize = c.defaults.rootfsSize ∨
      c'.defaults.rootfsSize = Config.default.defaults.rootfsSize ∨
        ∃ node value, w = .set node "rootfs-size" value ∧
          Size.fromStr value = .ok c'.defaults.rootfsSize := by
  obtain ⟨ps, hps, rfl⟩ := ConfigChange.exists_puts h
  cases w with
  | set node key value =>
    obtain ⟨p, rfl, hp, hsize⟩ := ConfigChange.put_of_setPuts hps
    cases hp with
    | storage s => exact .inl (congrArg Defaults.rootfsSize (Config.setStorageFor_defaults _ _ _))
    | rootfsSize hpos =>
      obtain ⟨rfl, hs⟩ := hsize _ rfl
      exact .inr (.inr ⟨node, value, rfl, hs⟩)
    | _ => exact .inl rfl
  | unset node key =>
    obtain ⟨p, rfl, hp, hsize⟩ := ConfigChange.put_of_unsetPuts hps
    cases hp with
    | storage s => exact .inl (congrArg Defaults.rootfsSize (Config.setStorageFor_defaults _ _ _))
    | rootfsSize hpos => exact .inr (.inl (hsize _ rfl))
    | _ => exact .inl rfl
  | answers node templateStorage storage =>
    left
    cases hps
    cases storage with
    | none => cases templateStorage <;> rfl
    | some s =>
      cases templateStorage with
      | none =>
        show (Config.setStorageFor _ node (some s)).defaults.rootfsSize = _
        rw [Config.setStorageFor_defaults]
      | some t =>
        show (Config.setStorageFor _ node (some s)).defaults.rootfsSize = _
        rw [Config.setStorageFor_defaults]
        rfl

/-- **A size that is set is the only thing that may not read back (proved).** -/
theorem reread_change_iff {w : ConfigChange} {c c' : Config} (hc : c.reread = c)
    (h : w.change c = .ok c') : c'.reread = c' ↔ w.Whole := by
  rw [reread_eq_self_iff] at hc ⊢
  constructor
  · intro hsize
    cases w with
    | set node key value =>
      rintro rfl s hs
      have hs' : setKey c node "rootfs-size" value = .ok { c with defaults.rootfsSize := s } := by
        show (Size.fromStr value >>= fun s => .ok { c with defaults.rootfsSize := s }) = _
        rw [hs]
        rfl
      rw [ConfigChange.change, hs'] at h
      cases h
      exact (Size.reread_eq_iff (Size.fromStr_pos hs)).mp hsize
    | _ => trivial
  · intro hwhole
    rcases rootfsSize_change h with heq | heq | ⟨node, value, rfl, hs⟩
    · rw [heq]
      exact hc
    · rw [heq]
      decide
    · exact (Size.reread_eq_iff (Size.fromStr_pos hs)).mpr (hwhole rfl _ hs)

theorem applyChange_ok {st st' : Config × FileRead} {w : ConfigChange}
    (h : applyChange x st w = .ok st') : ∃ c t, Config.load x.configFromYaml st.2 = .ok c ∧
      w.change c = .ok st'.1 ∧ saveText x st'.1 = .ok t ∧ st'.2 = .text t := by
  obtain ⟨c, hc, h⟩ := bind_eq_ok.mp h
  obtain ⟨c', hc', h⟩ := bind_eq_ok.mp h
  obtain ⟨t, ht, h⟩ := bind_eq_ok.mp h
  cases h
  exact ⟨c, t, hc, hc', ht, rfl⟩

/-- **The step lemma (proved)**: what a command leaves, where what it found reads back. -/
theorem applyChange_restored_iff (hx : ReadsBack x) {st st' : Config × FileRead} {w : ConfigChange}
    (hst : Config.load x.configFromYaml st.2 = .ok st.1) (hread : st.1.reread = st.1)
    (h : applyChange x st w = .ok st') : Restored x st.1 w st' ↔ w.Whole := by
  obtain ⟨c, t, hc, hc', ht, hfile⟩ := applyChange_ok h
  rw [hst] at hc
  cases hc
  rw [← reread_change_iff hread hc']
  have hload := load_saveText hx (ConfigChange.typed_change (typed_load hx hst) hc') ht
  rw [← hfile] at hload
  constructor
  · intro hr
    rw [hr.back] at hload
    exact (Except.ok.inj hload).symm
  · intro heq
    rw [heq] at hload
    exact ⟨hload, fun k hk => ConfigChange.value_change_of_not_mem hc' hk⟩

/-- What was saved last is loaded, and its size reads back. -/
structure Intact (x : External) (st : Config × FileRead) : Prop where
  back : Config.load x.configFromYaml st.2 = .ok st.1
  reread : st.1.reread = st.1

theorem intact_start : Intact x (Config.default, .notFound) := ⟨rfl, rfl⟩

theorem Intact.applyChange (hx : ReadsBack x) {st st' : Config × FileRead} {w : ConfigChange}
    (hst : Intact x st) (h : applyChange x st w = .ok st') (hw : w.Whole) : Intact x st' := by
  have hr := (applyChange_restored_iff hx hst.back hst.reread h).mpr hw
  obtain ⟨c, t, hc, hc', -, -⟩ := applyChange_ok h
  rw [hst.back] at hc
  cases hc
  exact ⟨hr.back, (reread_change_iff hst.reread hc').mpr hw⟩

theorem applyChanges_append {before after : List ConfigChange} {st : Config × FileRead}
    (h : applyChanges x (before ++ after) = .ok st) :
    ∃ st₀, applyChanges x before = .ok st₀ ∧ after.foldlM (applyChange x) st₀ = .ok st := by
  rw [applyChanges, List.foldlM_append] at h
  exact bind_eq_ok.mp h

/-- **What is stored is read back (proved)**: after every command of a run, and nothing but its own
keys has changed, exactly when every size that is set reads back. -/
theorem read_back_iff (hx : ReadsBack x) {ws : List ConfigChange} {st : Config × FileRead}
    (h : applyChanges x ws = .ok st) :
    (∀ before w after st₀ st₁, ws = before ++ w :: after → applyChanges x before = .ok st₀ →
      applyChange x st₀ w = .ok st₁ → Restored x st₀.1 w st₁) ↔ ∀ w ∈ ws, w.Whole := by
  constructor
  · intro hall
    -- by induction from the front: what every command finds is intact
    have hintact : ∀ before after st₀, ws = before ++ after → applyChanges x before = .ok st₀ →
        Intact x st₀ := by
      intro before
      induction before using List.reverseRecOn with
      | nil =>
        rintro after st₀ - h₀
        cases h₀
        exact intact_start
      | append_singleton before w ih =>
        intro after st₁ hws h₁
        obtain ⟨st₀, h₀, hstep⟩ := applyChanges_append h₁
        rw [List.foldlM_cons] at hstep
        obtain ⟨st', hstep, hend⟩ := bind_eq_ok.mp hstep
        cases hend
        have hws' : ws = before ++ w :: after := by rw [hws, List.append_assoc, List.singleton_append]
        have hst₀ := ih (w :: after) st₀ hws' h₀
        have hr := hall before w after st₀ _ hws' h₀ hstep
        exact hst₀.applyChange hx hstep
          ((applyChange_restored_iff hx hst₀.back hst₀.reread hstep).mp hr)
    intro w hw
    obtain ⟨before, after, rfl⟩ := List.append_of_mem hw
    obtain ⟨st₀, h₀, hrest⟩ := applyChanges_append h
    rw [List.foldlM_cons] at hrest
    obtain ⟨st₁, hstep, -⟩ := bind_eq_ok.mp hrest
    have hst₀ := hintact before _ st₀ rfl h₀
    exact (applyChange_restored_iff hx hst₀.back hst₀.reread hstep).mp
      (hall before w after st₀ st₁ rfl h₀ hstep)
  · rintro hwhole before w after st₀ st₁ rfl h₀ hstep
    have hst₀ : Intact x st₀ := by
      refine foldlM_induction (P := Intact x) (fun w' hw' st st' hst h => ?_) intact_start h₀
      exact hst.applyChange hx h (hwhole w' (List.mem_append_left _ hw'))
    exact (applyChange_restored_iff hx hst₀.back hst₀.reread hstep).mpr (hwhole w (by simp))

end File

/-! ### What is read fits -/

section Typed

variable {α : Type} {m : Mapping} {k : Text} {d a : α} {read : Value → Result α}

theorem fieldOr_ok (h : fieldOr m k d read = .ok a) : a = d ∨ ∃ v, read v = .ok a := by
  rw [fieldOr] at h
  cases hv : m.get k with
  | none =>
    rw [hv] at h
    exact .inl (Except.ok.inj h).symm
  | some v =>
    rw [hv] at h
    exact .inr ⟨v, h⟩

theorem readUnsigned_lt {bits n : ℕ} {v : Value} (h : readUnsigned bits v = .ok n) : n < 2 ^ bits := by
  unfold readUnsigned at h
  split at h
  · split_ifs at h with hlt
    · cases h
      exact hlt
    · exact absurd h bail_ne_ok
  · exact absurd h bail_ne_ok

theorem fieldOr_lt {bits d n : ℕ} (hd : d < 2 ^ bits)
    (h : fieldOr m k d (readUnsigned bits) = .ok n) : n < 2 ^ bits := by
  rcases fieldOr_ok h with rfl | ⟨v, hv⟩
  · exact hd
  · exact readUnsigned_lt hv

theorem Size.ofValue_pos {s : Size} {v : Value} (h : Size.ofValue v = .ok s) : 0 < s.bytes := by
  unfold ofValue at h
  split at h
  · exact fromStr_pos h
  · exact fromStr_pos h
  · exact absurd h bail_ne_ok

theorem Defaults.ofValue_fits {s : Defaults} {v : Value} (h : Defaults.ofValue v = .ok s) :
    0 < s.rootfsSize.bytes ∧ s.cores < 2 ^ 32 ∧ s.memory < 2 ^ 64 := by
  obtain ⟨m, -, h⟩ := bind_eq_ok.mp h
  obtain ⟨size, hsize, h⟩ := bind_eq_ok.mp h
  obtain ⟨_, -, h⟩ := bind_eq_ok.mp h
  obtain ⟨_, -, h⟩ := bind_eq_ok.mp h
  obtain ⟨cores, hcores, h⟩ := bind_eq_ok.mp h
  obtain ⟨memory, hmemory, h⟩ := bind_eq_ok.mp h
  cases h
  refine ⟨?_, fieldOr_lt (by decide) hcores, fieldOr_lt (by decide) hmemory⟩
  rcases fieldOr_ok hsize with rfl | ⟨v, hv⟩
  · exact typed_default.rootfsSize
  · exact Size.ofValue_pos hv

/-- **What a value tree reads as is typed (proved).** -/
theorem typed_ofValue {c : Config} {v : Value} (h : Config.ofValue v = .ok c) : c.Typed := by
  obtain ⟨m, -, h⟩ := bind_eq_ok.mp h
  obtain ⟨_, -, h⟩ := bind_eq_ok.mp h
  obtain ⟨defaults, hdefaults, h⟩ := bind_eq_ok.mp h
  obtain ⟨_, -, h⟩ := bind_eq_ok.mp h
  obtain ⟨limits, hlimits, h⟩ := bind_eq_ok.mp h
  obtain ⟨daemon, hdaemon, h⟩ := bind_eq_ok.mp h
  cases h
  have hd : 0 < defaults.rootfsSize.bytes ∧ defaults.cores < 2 ^ 32 ∧ defaults.memory < 2 ^ 64 := by
    rcases fieldOr_ok hdefaults with rfl | ⟨v, hv⟩
    · exact ⟨typed_default.rootfsSize, typed_default.cores, typed_default.memory⟩
    · exact Defaults.ofValue_fits hv
  have hl : limits.maxDiskGib < 2 ^ 64 := by
    rcases fieldOr_ok hlimits with rfl | ⟨v, hv⟩
    · exact typed_default.maxDiskGib
    · obtain ⟨m, -, hv⟩ := bind_eq_ok.mp hv
      obtain ⟨_, -, hv⟩ := bind_eq_ok.mp hv
      obtain ⟨_, -, hv⟩ := bind_eq_ok.mp hv
      obtain ⟨maxDiskGib, hmax, hv⟩ := bind_eq_ok.mp hv
      cases hv
      exact fieldOr_lt (by decide) hmax
  have hn : daemon.interval < 2 ^ 64 ∧ daemon.fullEvery < 2 ^ 64 := by
    rcases fieldOr_ok hdaemon with rfl | ⟨v, hv⟩
    · exact ⟨typed_default.interval, typed_default.fullEvery⟩
    · obtain ⟨m, -, hv⟩ := bind_eq_ok.mp hv
      obtain ⟨interval, hinterval, hv⟩ := bind_eq_ok.mp hv
      obtain ⟨fullEvery, hfull, hv⟩ := bind_eq_ok.mp hv
      cases hv
      exact ⟨fieldOr_lt (by decide) hinterval, fieldOr_lt (by decide) hfull⟩
  exact ⟨hd.1, hd.2.1, hd.2.2, hl, hn.1, hn.2⟩

end Typed

/-! ### A size in bytes -/

/-- The tree of a config that says nothing but a size. -/
def sizeTree (s : Text) : Value :=
  .mapping [(.string "defaults", .mapping [(.string "rootfs_size", .string s)])]

def sizeBefore : Text := "defaults:\n  rootfs_size: "

/-- A number with a unit, or without. -/
def Sized (s : Text) : Prop :=
  s.head?.any Char.isDigit = true ∧ s.dropWhile Char.isDigit ∈ (["", "K", "M", "G", "T"] : List String).map
    String.toList

instance (s : Text) : Decidable (Sized s) := inferInstanceAs (Decidable (_ ∧ _))

/-- A text that would be read as a number is quoted. -/
def sizePrinted (s : Text) : Text := if s.all Char.isDigit then '\'' :: (s ++ ['\'']) else s

/-- The library on such trees. -/
def sizeYaml : Value → Result Text
  | .mapping [(.string d, .mapping [(.string r, .string s)])] =>
    if d = "defaults" ∧ r = "rootfs_size" ∧ Sized s then .ok (sizeBefore ++ (sizePrinted s ++ "\n"))
    else bail "not printed here"
  | _ => bail "not printed here"

def sizeRead (t : Text) : Result Config :=
  let s := (t.drop (CONFIG_HEADER ++ sizeBefore).length).dropLast.filter (· ≠ '\'')
  if t = CONFIG_HEADER then .ok Config.default
  else if t = CONFIG_HEADER ++ (sizeBefore ++ (sizePrinted s ++ "\n")) then Config.ofValue (sizeTree s)
  else bail "not read here"

def sizeExternal : External where
  docFromYaml _ := bail "not read here"
  configFromYaml := sizeRead
  toYaml := sizeYaml
  digest t := t

theorem sizeYaml_ok {v : Value} {t : Text} (h : sizeYaml v = .ok t) :
    ∃ s, v = sizeTree s ∧ Sized s ∧ t = sizeBefore ++ (sizePrinted s ++ "\n") := by
  unfold sizeYaml at h
  split at h
  · split_ifs at h with hnames
    · cases h
      obtain ⟨rfl, rfl, hsized⟩ := hnames
      exact ⟨_, rfl, hsized, rfl⟩
    · exact absurd h bail_ne_ok
  · exact absurd h bail_ne_ok

theorem filter_sizePrinted {s : Text} (h : Sized s) : (sizePrinted s).filter (· ≠ '\'') = s := by
  have hquote : '\'' ∉ s := by
    rw [← List.takeWhile_append_dropWhile (p := Char.isDigit) (l := s), List.mem_append]
    rintro (hmem | hmem)
    · exact absurd (List.mem_takeWhile_imp hmem) (by decide)
    · have hunits : ∀ u ∈ (["", "K", "M", "G", "T"] : List String).map String.toList, '\'' ∉ u := by decide
      exact hunits _ h.2 hmem
  have hself : s.filter (· ≠ '\'') = s :=
    List.filter_eq_self.mpr fun c hc => decide_eq_true fun heq => hquote (heq ▸ hc)
  unfold sizePrinted
  split_ifs
  · show (s ++ ['\'']).filter (· ≠ '\'') = s
    rw [List.filter_append, hself]
    exact List.append_nil s
  · exact hself

theorem sizeExternal_configFromYaml : sizeExternal.configFromYaml = sizeRead := rfl

theorem sizeExternal_readsBack : ReadsBack sizeExternal where
  blank := by
    rw [sizeExternal_configFromYaml, sizeRead]
    exact if_pos rfl
  back c t h := by
    obtain ⟨s, hs, hsized, rfl⟩ := sizeYaml_ok h
    rw [hs]
    have hbody : ((CONFIG_HEADER ++ (sizeBefore ++ (sizePrinted s ++ "\n"))).drop
        (CONFIG_HEADER ++ sizeBefore).length).dropLast.filter (· ≠ '\'') = s := by
      rw [← List.append_assoc, List.drop_left]
      show (sizePrinted s ++ ['\n']).dropLast.filter _ = s
      rw [List.dropLast_concat, filter_sizePrinted hsized]
    have hne : CONFIG_HEADER ++ (sizeBefore ++ (sizePrinted s ++ "\n")) ≠ CONFIG_HEADER := by
      intro heq
      have hlength := congrArg List.length heq
      rw [List.length_append, List.length_append] at hlength
      have hpos : 0 < sizeBefore.length := by decide
      omega
    rw [sizeExternal_configFromYaml, sizeRead, hbody, if_neg hne, if_pos rfl]
  typed t c h := by
    change sizeRead t = .ok c at h
    unfold sizeRead at h
    dsimp only at h
    split_ifs at h
    · cases h
      exact typed_default
    · exact typed_ofValue h
    · exact absurd h bail_ne_ok

/-- **A size in bytes comes back in GiB.**  1500 bytes are printed as `1500`, which is read as GiB. -/
theorem not_read_back :
    ReadsBack sizeExternal ∧
      ∃ st, applyChanges sizeExternal [.set "pve" "rootfs-size" "1500B"] = .ok st ∧
        st.1.defaults.rootfsSize.bytes = 1500 ∧
        ∃ c, Config.load sizeExternal.configFromYaml st.2 = .ok c ∧
          c.defaults.rootfsSize.bytes = 1500 * Size.GIB := by
  have hrun : ((applyChanges sizeExternal [.set "pve" "rootfs-size" "1500B"]).toOption.map fun st =>
      (st.1.defaults.rootfsSize.bytes, (Config.load sizeExternal.configFromYaml st.2).toOption.map
        fun c => c.defaults.rootfsSize.bytes)) = some (1500, some (1500 * Size.GIB)) := by
    decide +kernel
  obtain ⟨st, hst, hvalues⟩ := Option.map_eq_some_iff.mp hrun
  obtain ⟨hsize, hloaded⟩ := Prod.mk.inj hvalues
  obtain ⟨c, hc, hbytes⟩ := Option.map_eq_some_iff.mp hloaded
  exact ⟨sizeExternal_readsBack, st, eq_ok_of_toOption hst, hsize, c, eq_ok_of_toOption hc, hbytes⟩

/-- A size of 1500 MiB, and then the default again. -/
def sizeChanges : List ConfigChange :=
  [.set "pve" "rootfs-size" "1500M", .unset "pve" "rootfs-size"]

theorem read_back_mib :
    ∃ st, applyChanges sizeExternal sizeChanges = .ok st ∧
      ∀ before w after st₀ st₁, sizeChanges = before ++ w :: after →
        applyChanges sizeExternal before = .ok st₀ → applyChange sizeExternal st₀ w = .ok st₁ →
        Restored sizeExternal st₀.1 w st₁ := by
  have hrun : (applyChanges sizeExternal sizeChanges).toOption.isSome := by decide +kernel
  obtain ⟨st, hst⟩ := Option.isSome_iff_exists.mp hrun
  have h := eq_ok_of_toOption hst
  refine ⟨st, h, (read_back_iff sizeExternal_readsBack h).mpr fun w hw => ?_⟩
  rcases List.mem_cons.mp hw with rfl | hw
  · rintro - s hs
    have hread : (Size.fromStr "1500M").toOption.map Size.bytes = some (1500 * Size.MIB) := by
      decide
    rw [hs] at hread
    rw [show s.bytes = 1500 * Size.MIB from Option.some.inj hread]
    decide
  · rw [List.mem_singleton.mp hw]
    trivial

end PveCompose
