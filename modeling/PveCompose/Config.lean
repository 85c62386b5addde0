import PveCompose.Mount

/-!
# The operator's stored choices (`config.rs`)

`/etc/pve/pve-compose.cfg` as it is loaded: the file's text goes through the YAML library, a file
that is missing or blank is the default config.  Two readings of a config matter downstream:

* `Config.storageFor` — the disk storage of a node;
* `Config.limitsFor` — the bounds a document on a node is held to, an empty storage list being the
  node's own storage (`mem_storages_limitsFor`).
-/

namespace PveCompose

structure Template where
  storage : Option Text
  base : Text
deriving DecidableEq

structure Defaults where
  rootfsSize : Size
  owner : Text
  bridge : Text
  cores : ℕ
  memory : ℕ
deriving DecidableEq

structure NodeOverrides where
  storage : Option Text
deriving DecidableEq

/-- What a guest's document may ask the node for. -/
structure Limits where
  bindRoots : List Text
  storages : List Text
  maxDiskGib : ℕ
deriving DecidableEq

structure DaemonConfig where
  interval : ℕ
  fullEvery : ℕ
deriving DecidableEq

structure Config where
  template : Template
  defaults : Defaults
  nodes : Std.ExtTreeMap Text NodeOverrides
  limits : Limits
  daemon : DaemonConfig
deriving DecidableEq

/-- What reading the file gives: its text, that it is not there, or another error. -/
inductive FileRead where
  | text : Text → FileRead
  | notFound : FileRead
  | failed : Error → FileRead

namespace Config

def PATH : Text := "/etc/pve/pve-compose.cfg"

def default : Config where
  template := { storage := none, base := "debian-13-standard" }
  defaults :=
    { rootfsSize := ⟨8 * Size.GIB, by decide⟩, owner := "1000:1000", bridge := "vmbr0", cores := 2
      memory := 2048 }
  nodes := ∅
  limits := { bindRoots := [], storages := [], maxDiskGib := 64 }
  daemon := { interval := 30, fullEvery := 600 }

/-- `load`; `fromYaml` is the YAML library reading a `Config`. -/
def load (fromYaml : Text → Result Config) : FileRead → Result Config
  | .text t =>
    if Words.strip isSpace t = [] then .ok default
    else withContext (PATH ++ ": bad configuration") (fromYaml t)
  | .notFound => .ok default
  | .failed e => withContext ("cannot read " ++ PATH) (.error e)

def storageFor (c : Config) (node : Text) : Option Text := c.nodes[node]?.bind NodeOverrides.storage

def limitsFor (c : Config) (node : Text) : Limits :=
  if c.limits.storages = [] then { c.limits with storages := (c.storageFor node).toList }
  else c.limits

@[simp] theorem limitsFor_bindRoots (c : Config) (node : Text) :
    (c.limitsFor node).bindRoots = c.limits.bindRoots := by
  unfold limitsFor
  split_ifs <;> rfl

@[simp] theorem limitsFor_maxDiskGib (c : Config) (node : Text) :
    (c.limitsFor node).maxDiskGib = c.limits.maxDiskGib := by
  unfold limitsFor
  split_ifs <;> rfl

/-- A storage within the bounds is a listed one, or the node's own when none is listed. -/
theorem mem_storages_limitsFor {c : Config} {node s : Text} :
    s ∈ (c.limitsFor node).storages ↔
      s ∈ c.limits.storages ∨ (c.limits.storages = [] ∧ c.storageFor node = some s) := by
  unfold limitsFor
  split_ifs with h
  · simp [h]
  · simp [h]

end Config

end PveCompose
