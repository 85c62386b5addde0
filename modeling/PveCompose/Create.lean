import PveCompose.Apply
import PveCompose.Stored
import PveCompose.Lib.Embed

/-!
# Creating a wrapper (`ops/new.rs`, `ops/template.rs`, `prompt.rs`)

`new` settles two storages, remembers the answers it was told to store, resolves a template, creates
the guest and writes its first document, and only then takes the lock and runs the two halves.  An
error is either one of its own refusals, with what it was refused for, or a command that failed.  What
is typed at the terminal is a list of lines; what is printed is left out, but for the messages.

* `Cluster`, `clusterWorld` — the guests, documents, templates and stored choices, and what each
  command may do to them;
* `Cluster.Ready` — the vmid is free, the storages are settled and a template is there, on the cluster,
  the flags and the lines typed alone;
* `wp_settled`, `wp_resolve` — **PROVED**: up to the create, nothing but stored choices is written before a
  refusal, and the refusal is one that the cluster was not ready;
* `refused_iff` — **PROVED**: a refused `new` leaves everything as it was exactly when the vmid had no
  document, or the cluster was not ready for it.
-/

namespace PveCompose

open Programs

/-! ### Errors -/

/-- What was already so. -/
inductive Reason where
  | inUse : Reason
  | noStorage : Reason
  | unanswered : Reason
  | noTemplate : Reason
  | hasDocument : Reason
deriving DecidableEq

/-- How `new` ends early. -/
inductive Stop where
  | refused : Reason → Text → Stop
  | failed : Error → Stop

/-! ### Commands -/

/-- A row of the node's storages. -/
structure StorageRow where
  active : Option ℕ
  storage : Option Text

/-- What `new` runs, beside the commands of an apply. -/
inductive NewCmd where
  | host : Cmd → NewCmd
  | ownerNode : ℕ → NewCmd
  | storages : Text → Text → NewCmd
  | saveConfig : Text → NewCmd
  | architecture : NewCmd
  | content : Text → Text → NewCmd
  | pveamUpdate : NewCmd
  | pveamAvailable : NewCmd
  | pveamDownload : Text → Text → NewCmd
  | create : ℕ → List Text → NewCmd
  | metaSet : ℕ → Text → NewCmd
  | start : ℕ → NewCmd
  | waitReady : ℕ → ℕ → NewCmd

/-- A row of a storage's content is its volid, if it has one. -/
abbrev NewCmd.Answer : NewCmd → Type
  | .host c => c.Answer
  | .ownerNode _ => Result (Option (Text × Text))
  | .storages _ _ => Result (List StorageRow)
  | .content _ _ => Result (List (Option Text))
  | .architecture | .pveamAvailable => Result Text
  | .saveConfig _ | .pveamUpdate | .pveamDownload _ _ | .create _ _ | .metaSet _ _ | .start _
  | .waitReady _ _ => Result Unit

abbrev newSig : Sig := ⟨NewCmd, NewCmd.Answer⟩

abbrev New := Fallible newSig Stop

def hostEmbedding : Embedding sig newSig := ⟨.host, fun _ r => r⟩

namespace New

/-- A program of an apply. -/
def host {α : Type} (p : M α) : New α := p.embed hostEmbedding .failed

/-- Issue a command; an error it is answered with ends `new`. -/
def command {α : Type} (c : NewCmd) (f : c.Answer → Result α) : New α :=
  .issue (S := newSig) c fun r => (f r).mapError .failed

def refuse {α : Type} (why : Reason) (msg : Text) : New α := .throw (.refused why msg)

def say (msg : Text) : New Unit := host (report msg)

end New

/-! ### Questions (`prompt.rs`) -/

/-- What stands at the terminal: whether there is one, and the lines that will be typed. -/
structure Terminal where
  interactive : Bool
  lines : List (Result Text)

/-- What a line cannot be read for. -/
def readFailed (e : Error) : Stop := .failed ⟨"reading the answer" :: e.chain⟩

def noAnswer : Stop := .refused .unanswered "no answer (end of input)"

/-- `read_line`, with the lines left. -/
def readLine : List (Result Text) → Except Stop (Text × List (Result Text))
  | [] => .error noAnswer
  | .error e :: _ => .error (readFailed e)
  | .ok l :: rest => .ok (trim l, rest)

/-- The loop of `choose`, over `n` items: lines are read until one is a number from 1 to `n`. -/
def chooseFrom (n : ℕ) : List (Result Text) → Except Stop (ℕ × List (Result Text))
  | [] => .error noAnswer
  | .error e :: _ => .error (readFailed e)
  | .ok l :: rest =>
    match parseUnsigned 64 (trim l) with
    | .ok k => if 1 ≤ k ∧ k ≤ n then .ok (k - 1, rest) else chooseFrom n rest
    | .error _ => chooseFrom n rest

/-- `choose`. -/
def choose (items : List Text) (lines : List (Result Text)) :
    Except Stop (ℕ × List (Result Text)) :=
  if items = [] then .error (.failed ⟨["nothing to choose from"]⟩) else chooseFrom items.length lines

/-- `yes_no`. -/
def yesNo (default : Bool) (lines : List (Result Text)) : Except Stop (Bool × List (Result Text)) := do
  let (a, rest) ← readLine lines
  let a := a.map Char.toLower
  .ok (if a = [] then default else a = "y" ∨ a = "yes", rest)

/-! ### Storages -/

/-- `storages`: the ids of the active rows, sorted. -/
def storageIds (rows : List StorageRow) : List Text :=
  ((rows.filter fun r => r.active ≠ some 0).filterMap StorageRow.storage).insertionSort (· ≤ ·)

/-- Where a settled value came from. -/
inductive Source where
  | flag : Source
  | config : Source
  | asked : Source
deriving DecidableEq

/-- `settle_storage`, with the lines left. -/
def settleStorage (ctx : Ctx) (flag configured : Option Text) (content what configKey : Text)
    (t : Terminal) : New ((Text × Source) × List (Result Text)) :=
  match flag, configured with
  | some s, _ => pure ((s, .flag), t.lines)
  | none, some s => pure ((s, .config), t.lines)
  | none, none => do
    let rows ← New.command (.storages ctx.node content) id
    let candidates := storageIds rows
    if candidates = [] then
      New.refuse .noStorage ("no enabled storage on " ++ ctx.node ++ " accepts `" ++ content
        ++ "` content; allow it on one (Datacenter > Storage > Edit > Content), then run again")
    else if ¬ t.interactive then
      New.refuse .noStorage ("no " ++ what ++ " configured and no terminal to ask on; `pve-compose config set "
        ++ configKey ++ " <storage>` (on " ++ ctx.node ++ ": " ++ List.intercalate ", " candidates ++ ")")
    else do
      let (i, rest) ← .ofExcept (choose candidates t.lines)
      pure ((candidates.getD i [], .asked), rest)

/-- A question about a value that was asked for. -/
def askStore (source : Source) (lines : List (Result Text)) :
    Except Stop (Bool × List (Result Text)) :=
  if source = .asked then yesNo true lines else .ok (false, lines)

variable (x : External)

/-- `Config::update`, with what the answers put. -/
def updateConfig (node : Text) (templateStorage storage : Option Text) : New Config := do
  let c ← New.command (.host .loadConfig) (Config.load x.configFromYaml)
  let c := storeAnswers c node templateStorage storage
  let text ← .ofExcept ((saveText x c).mapError .failed)
  New.command (.saveConfig text) id
  New.say ("new: stored in " ++ Config.PATH)
  pure c

/-! ### Templates (`template.rs`) -/

def VZTMPL : Text := ":vztmpl/"

/-- `arch`. -/
def arch : New Text := do
  let out ← New.command .architecture id
  let a := trim out
  if a = [] then .throw (.failed ⟨["cannot determine the architecture"]⟩) else pure a

/-- `for_arch`. -/
def forArch (name arch : Text) : Bool := '_' :: arch ++ ['.'] <:+: name

/-- The greatest text, as `sort` and `pop` find it. -/
def sortedLast (names : List Text) : Option Text := (names.insertionSort (· ≤ ·)).getLast?

/-- `rsplit('/').next()`: the file name of a volid. -/
def fileName (volid : Text) : Text := (volid.reverse.takeWhile (· ≠ '/')).reverse

/-- The choice of `newest_vztmpl` among the rows of a storage. -/
def newestVolid (rows : List (Option Text)) (pre arch : Text) : Option Text :=
  sortedLast ((rows.filterMap id).filter fun v =>
    pre.isPrefixOf (fileName v) && forArch (fileName v) arch)

/-- `newest_vztmpl`. -/
def newestVztmpl (ctx : Ctx) (storage pre : Text) : New (Option Text) := do
  let a ← arch
  let rows ← New.command (.content ctx.node storage) id
  pure (newestVolid rows pre a)

/-- `split_whitespace().nth(1)`. -/
def secondWord (line : Text) : Option Text := ((line.splitOnP isSpace).filter (· ≠ []))[1]?

/-- The choice of `download_base` among the lines of `pveam available`. -/
def newestAvailable (stdout base arch : Text) : Option Text :=
  sortedLast (((stdout.splitOn '\n').filterMap secondWord).filter fun n =>
    (base ++ "_").isPrefixOf n && forArch n arch)

/-- `download_base`. -/
def downloadBase (ctx : Ctx) (storage : Text) : New Text := do
  let base := ctx.config.template.base
  let a ← arch
  New.say ("template: fetching the " ++ base ++ " template list")
  New.command .pveamUpdate id
  let out ← New.command .pveamAvailable id
  match newestAvailable out base a with
  | none => New.refuse .noTemplate ("no upstream " ++ a ++ " template starts with " ++ base
      ++ "_ (pveam available)")
  | some name => do
    New.say ("template: downloading " ++ name ++ " to " ++ storage)
    New.command (.pveamDownload storage name) id
    pure (storage ++ VZTMPL ++ name)

/-- `resolve`. -/
def resolve (ctx : Ctx) (storage : Text) (explicit : Option Text) : New Text :=
  match explicit with
  | some e =>
    if VZTMPL <:+: e then pure e
    else do
      match ← newestVztmpl ctx storage e with
      | some v => pure v
      | none => New.refuse .noTemplate ("no template on " ++ storage ++ " starts with " ++ e)
  | none => do
    match ← newestVztmpl ctx storage (ctx.config.template.base ++ "_") with
    | some v => pure v
    | none => downloadBase ctx storage

/-! ### The wrapper -/

/-- The flags of `new`. -/
structure NewArgs where
  vmid : ℕ
  name : Text
  template : Option Text
  storage : Option Text
  rootfsSize : Option Size
  bridge : Option Text
  ip : Option Text
  gateway : Option Text
  cores : Option ℕ
  memory : Option ℕ
  noUp : Bool

/-- Everything `pct create` needs. -/
structure WrapperSpec where
  vmid : ℕ
  hostname : Text
  template : Text
  rootfsStorage : Text
  rootfsSize : Size
  unprivileged : Bool
  cores : ℕ
  memory : ℕ
  net0 : Text
  features : Text
  tags : List Text
  onboot : Bool

/-- The arguments of `create_wrapper`, after the verb and the vmid. -/
def WrapperSpec.args (w : WrapperSpec) : List Text :=
  let tags : Text := List.intercalate ";" w.tags
  [w.template, "--hostname", w.hostname, "--rootfs",
    w.rootfsStorage ++ ":" ++ w.rootfsSize.toPctGib, "--unprivileged", flag w.unprivileged, "--cores",
    dec w.cores, "--memory", dec w.memory, "--swap", "0", "--net0", w.net0, "--features", w.features,
    "--onboot", flag w.onboot] ++ (if tags = [] then [] else ["--tags".toList, tags])

def createWrapper (w : WrapperSpec) : New Unit := New.command (.create w.vmid w.args) id

def initialDocument : Text :=
  "policy:\n  pct: auto\n  docker: auto\n  pull: manual\nspec:\n  services: \x7b\x7d\n"

/-- An error of `pve-meta set` that says the document is there. -/
def isMismatch (e : Error) : Bool := "digest mismatch".toList <:+: e.display

/-- `write_initial`. -/
def writeInitial (vmid : ℕ) (text : Text) : New Unit :=
  .issue (S := newSig) (.metaSet vmid text) fun r => r.mapError fun e =>
    if isMismatch e then
      .refused .hasDocument ("guest " ++ dec vmid ++ " already has a pve-meta document; `new` writes the "
        ++ "first one and never replaces one (`pve-meta get " ++ dec vmid ++ "` shows what is there)")
    else .failed e

/-- The storage of an explicit volid, or the one that is settled. -/
def settleTemplateStorage (ctx : Ctx) (a : NewArgs) (t : Terminal) :
    New ((Text × Source) × List (Result Text)) :=
  match a.template.filter fun e => VZTMPL <:+: e with
  | some v => pure (((v.splitOn ':').headD [], .flag), t.lines)
  | none => settleStorage ctx none ctx.config.template.storage "vztmpl" "templates" "template-storage" t

/-- The config that goes on, with the answers stored in it if there are any to store. -/
def storeAsked (ctx : Ctx) (templateStorage storage : Option Text) : New Config :=
  if templateStorage.isSome ∨ storage.isSome then updateConfig x ctx.node templateStorage storage
  else pure ctx.config

/-- Everything to decide, decided: the storages, and the config with the answers stored. -/
def settle (ctx : Ctx) (a : NewArgs) (t : Terminal) : New ((Text × Text) × Config) := do
  let ((templateStorage, templateSource), lines) ← settleTemplateStorage ctx a t
  let ((storage, storageSource), lines) ← settleStorage ctx a.storage (ctx.config.storageFor ctx.node)
    "rootdir" "container disks" "storage" { t with lines }
  let (storeTemplate, lines) ← .ofExcept (askStore templateSource lines)
  let (storeStorage, _) ← .ofExcept (askStore storageSource lines)
  let config ← storeAsked x ctx (if storeTemplate then some templateStorage else none)
    (if storeStorage then some storage else none)
  pure ((templateStorage, storage), config)

/-- What the flags and the choices make of a wrapper. -/
def wrapperSpec (ctx : Ctx) (a : NewArgs) (config : Config) (storage template : Text) : WrapperSpec where
  vmid := a.vmid
  hostname := a.name
  template := template
  rootfsStorage := storage
  rootfsSize := a.rootfsSize.getD config.defaults.rootfsSize
  unprivileged := true
  cores := a.cores.getD config.defaults.cores
  memory := a.memory.getD config.defaults.memory
  net0 := "name=eth0,bridge=".toList ++ a.bridge.getD config.defaults.bridge ++ ",ip=" ++ a.ip.getD "dhcp"
    ++ a.gateway.elim [] fun gw => ",gw=".toList ++ gw
  features := "nesting=1,keyctl=1"
  tags := ctx.tag.toList
  onboot := true

def noFacts : Facts := { digest := [], template := none, appliedAt := [], version := [] }

/-- What `new` does with the guest's lock. -/
def firstApply (ctx : Ctx) (a : NewArgs) (template : Text) : New Unit := do
  New.command (.start a.vmid) id
  New.command (.waitReady a.vmid 90) id
  New.say ("new: " ++ dec a.vmid ++ " is up")
  New.host (applyLocked x ctx a.vmid { pull := false, noUp := a.noUp, onlyIfUp := false })
  let previous ← New.command (.host (.readFacts a.vmid)) id
  New.command (.host (.writeFacts a.vmid { previous.getD noFacts with template := some template })) id
  New.say ("new: done; write the stack into " ++ dec a.vmid ++ "'s `compose.spec` (Metadata tab, or "
    ++ "pve-meta set " ++ dec a.vmid ++ " compose.spec), data under /opt/stack/volumes/, secrets in "
    ++ "/opt/stack/.env" ++ if a.noUp then ", then `pve-compose docker apply " ++ dec a.vmid ++ "`" else [])
  New.host (requireRunning ctx a.vmid)

/-- `new`. -/
def new (ctx : Ctx) (a : NewArgs) (t : Terminal) : New Unit := do
  let owner ← New.command (.ownerNode a.vmid) id
  if owner.isSome then New.refuse .inUse ("vmid " ++ dec a.vmid ++ " is already in use")
  else do
    let ((templateStorage, storage), config) ← settle x ctx a t
    let template ← resolve ctx templateStorage a.template
    New.say ("new: creating " ++ dec a.vmid ++ " (" ++ a.name ++ ") from " ++ template)
    createWrapper (wrapperSpec ctx a config storage template)
    writeInitial a.vmid initialDocument
    New.say "new: document written"
    New.host (.issue (.lock a.vmid 60) id)
    let r ← (firstApply x ctx a template).attempt
    New.host (.issue (.unlock a.vmid) .ok)
    .ofExcept r

/-! ### The cluster -/

/-- What `new` may change, and what it asks about. -/
structure Cluster where
  guests : ℕ → Option (Text × Text)
  docs : ℕ → Option Text
  /-- The rows of the storages that accept a content. -/
  storages : Text → List StorageRow
  /-- The rows of a storage's templates. -/
  templates : Text → List (Option Text)
  /-- What `dpkg` prints as the node's architecture. -/
  architecture : Text
  /-- What `pveam` prints as available, once updated. -/
  available : Text
  configFile : FileRead

namespace Cluster

def withGuest (s : Cluster) (vmid : ℕ) (g : Option (Text × Text)) : Cluster :=
  { s with guests := Function.update s.guests vmid g }

def withDoc (s : Cluster) (vmid : ℕ) (text : Text) : Cluster :=
  { s with docs := Function.update s.docs vmid (some text) }

def withTemplate (s : Cluster) (storage name : Text) : Cluster :=
  let rows := s.templates storage ++ [some (storage ++ VZTMPL ++ name)]
  { s with templates := Function.update s.templates storage rows }

/-- Nothing but stored choices was written. -/
def SameBut (s s' : Cluster) : Prop := s' = { s with configFile := s'.configFile }

end Cluster

/-- What each command may be answered with, and do.  PVE creates no vmid that is in use, and pve-meta
writes a first document where there is none; a create that fails may leave anything at its vmid. -/
def newReply (s : Cluster) : (c : NewCmd) → c.Answer → Cluster → Prop
  | .ownerNode vmid, r, s' => s' = s ∧ ∀ g, r = .ok g → g = s.guests vmid
  | .storages _ content, r, s' => s' = s ∧ ∀ rows, r = .ok rows → rows = s.storages content
  | .content _ storage, r, s' => s' = s ∧ ∀ rows, r = .ok rows → rows = s.templates storage
  | .saveConfig text, r, s' =>
    s' = { s with configFile := .text text } ∨ (s' = s ∧ ∃ e, r = .error e)
  | .pveamDownload storage name, r, s' => s' = s.withTemplate storage name ∨ (s' = s ∧ ∃ e, r = .error e)
  | .create vmid _, r, s' =>
    ∃ g, s' = s.withGuest vmid g ∧ (r = .ok () → s.guests vmid = none ∧ g.isSome)
  | .metaSet vmid text, r, s' => (∀ e, r = .error e → isMismatch e → s' = s ∧ s.docs vmid ≠ none) ∧
      (r = .ok () → s' = s.withDoc vmid text ∧ s.docs vmid = none) ∧
      (s' = s ∨ s' = s.withDoc vmid text)
  | .architecture, r, s' => s' = s ∧ ∀ out, r = .ok out → out = s.architecture
  | .pveamAvailable, r, s' => s' = s ∧ ∀ out, r = .ok out → out = s.available
  | .host _, _, s' | .pveamUpdate, _, s' | .start _, _, s' | .waitReady _ _, _, s' => s' = s

abbrev clusterWorld : World newSig Cluster := ⟨newReply⟩

/-! ### What can be foreseen -/

namespace Cluster

/-- The storage that is settled on, with the lines left; none, if there is nothing to choose from, no
terminal to ask on, or no answer. -/
def storageFor (s : Cluster) (flag configured : Option Text) (content : Text) (t : Terminal) :
    Option ((Text × Source) × List (Result Text)) :=
  let candidates := storageIds (s.storages content)
  match flag, configured with
  | some v, _ => some ((v, .flag), t.lines)
  | none, some v => some ((v, .config), t.lines)
  | none, none =>
    if candidates = [] ∨ ¬ t.interactive then none
    else (choose candidates t.lines).toOption.map fun p => ((candidates.getD p.1 [], .asked), p.2)

def templateStorageFor (s : Cluster) (ctx : Ctx) (a : NewArgs) (t : Terminal) :
    Option ((Text × Source) × List (Result Text)) :=
  match a.template.filter fun e => VZTMPL <:+: e with
  | some v => some (((v.splitOn ':').headD [], .flag), t.lines)
  | none => s.storageFor none ctx.config.template.storage "vztmpl" t

/-- The template storage, if every storage is settled and every question answered. -/
def settles (s : Cluster) (ctx : Ctx) (a : NewArgs) (t : Terminal) : Option Text := do
  let (template, lines) ← s.templateStorageFor ctx a t
  let (storage, lines) ←
    s.storageFor a.storage (ctx.config.storageFor ctx.node) "rootdir" { t with lines }
  let (_, lines) ← (askStore template.2 lines).toOption
  let _ ← (askStore storage.2 lines).toOption
  some template.1

/-- A template matches: the one given, one on the storage, or one that can be downloaded. -/
def offers (s : Cluster) (ctx : Ctx) (storage : Text) : Option Text → Bool
  | some e => VZTMPL <:+: e || (newestVolid (s.templates storage) e (trim s.architecture)).isSome
  | none =>
    (newestVolid (s.templates storage) (ctx.config.template.base ++ "_") (trim s.architecture)).isSome ||
      (newestAvailable s.available ctx.config.template.base (trim s.architecture)).isSome

/-- Nothing but a document of the vmid stands in the way of `new`. -/
def Ready (s : Cluster) (ctx : Ctx) (a : NewArgs) (t : Terminal) : Prop :=
  s.guests a.vmid = none ∧ ∃ storage, s.settles ctx a t = some storage ∧
    s.offers ctx storage a.template = true

theorem SameBut.guests {s s' : Cluster} (h : s.SameBut s') : s'.guests = s.guests := by
  rw [SameBut] at h
  rw [h]

theorem SameBut.docs {s s' : Cluster} (h : s.SameBut s') : s'.docs = s.docs := by
  rw [SameBut] at h
  rw [h]

theorem SameBut.storages {s s' : Cluster} (h : s.SameBut s') : s'.storages = s.storages := by
  rw [SameBut] at h
  rw [h]

theorem SameBut.templates {s s' : Cluster} (h : s.SameBut s') : s'.templates = s.templates := by
  rw [SameBut] at h
  rw [h]

theorem SameBut.architecture {s s' : Cluster} (h : s.SameBut s') : s'.architecture = s.architecture := by
  rw [SameBut] at h
  rw [h]

theorem SameBut.available {s s' : Cluster} (h : s.SameBut s') : s'.available = s.available := by
  rw [SameBut] at h
  rw [h]

end Cluster

/-! ### Where a run may end -/

variable {x} {ctx : Ctx} {a : NewArgs} {t : Terminal} {s₀ : Cluster} {P P' : Prop}

/-- What is left where `new` ends early, from `s₀`. -/
def Stopped (s₀ : Cluster) (ctx : Ctx) (a : NewArgs) (t : Terminal) : Stop → Cluster → Prop
  | .refused .hasDocument _, s =>
    s₀.docs a.vmid ≠ none ∧ s.guests a.vmid ≠ s₀.guests a.vmid ∧ s₀.Ready ctx a t
  | .refused _ _, s => s₀.SameBut s ∧ ¬ s₀.Ready ctx a t
  | .failed _, _ => True

/-- A refusal before the create: nothing but stored choices was written, and `P`. -/
def Refusing (s₀ : Cluster) (P : Prop) : Stop → Cluster → Prop
  | .refused why _, s => why ≠ .hasDocument ∧ s₀.SameBut s ∧ P
  | .failed _, _ => True

/-- No command has an obligation here. -/
abbrev free : Cluster → NewCmd → Prop := fun _ _ => True

theorem Refusing.mono (hP : P → P') (e : Stop) (s : Cluster) (h : Refusing s₀ P e s) :
    Refusing s₀ P' e s := by
  cases e with
  | refused why msg => exact ⟨h.1, h.2.1, hP h.2.2⟩
  | failed e => trivial

theorem Refusing.stopped (hP : P → ¬ s₀.Ready ctx a t) (e : Stop) (s : Cluster) (h : Refusing s₀ P e s) :
    Stopped s₀ ctx a t e s := by
  cases e with
  | refused why msg =>
    obtain ⟨hwhy, hs, hp⟩ := h
    cases why with
    | hasDocument => exact absurd rfl hwhy
    | _ => exact ⟨hs, hP hp⟩
  | failed e => trivial

theorem wp_refuse {α : Type} {why : Reason} {msg : Text} {Q : α → Cluster → Prop} {s : Cluster}
    (h : s₀.SameBut s) (hwhy : why ≠ .hasDocument) (hp : P) :
    wp clusterWorld free (New.refuse why msg).run (Ends Q (Refusing s₀ P)) s := ⟨hwhy, h, hp⟩

/-- A command that fails ends `new` with no claim on what is left. -/
def FailsFreely (E : Stop → Cluster → Prop) : Prop := ∀ e s, E (.failed e) s

theorem stopped_failsFreely (s₀ : Cluster) (ctx : Ctx) (a : NewArgs) (t : Terminal) :
    FailsFreely (Stopped s₀ ctx a t) := fun _ _ => trivial

theorem refusing_failsFreely (s₀ : Cluster) (P : Prop) : FailsFreely (Refusing s₀ P) :=
  fun _ _ => trivial

theorem ends_mapError {α : Type} {E : Stop → Cluster → Prop} (hE : FailsFreely E) {r : Result α}
    {Q : α → Cluster → Prop} {s : Cluster} (h : ∀ b, r = .ok b → Q b s) :
    Ends Q E (r.mapError .failed) s := by
  cases r with
  | ok b => exact h b rfl
  | error e => exact hE e s

theorem wp_newRun {α : Type} {E : Stop → Cluster → Prop} (hE : FailsFreely E) {c : NewCmd}
    {f : c.Answer → Result α} {Q : α → Cluster → Prop} {s : Cluster}
    (h : ∀ r s', newReply s c r s' → ∀ b, f r = .ok b → Q b s') :
    wp clusterWorld free (New.command c f).run (Ends Q E) s :=
  ⟨trivial, fun r s' hr => ends_mapError hE (h r s' hr)⟩

/-- The commands of an apply change nothing here. -/
theorem wp_host {α : Type} {E : Stop → Cluster → Prop} (hE : FailsFreely E) {J : Cluster → Prop}
    (p : M α) {s : Cluster} (hs : J s) :
    wp clusterWorld free (New.host p).run (Ends (fun _ => J) E) s := by
  refine wp_embedFallible (fun _ _ _ => trivial) (fun s c r s' hs hr => ?_) (fun e s _ => hE e s) p hs
  obtain rfl : s' = s := hr
  exact hs

/-- A question that is not answered is a refusal before anything was done. -/
theorem wp_answer {α : Type} {r : Except Stop α} {s : Cluster} (hs : s₀.SameBut s)
    (h : ∀ why msg, r = .error (.refused why msg) → why = .unanswered) :
    wp clusterWorld free (.ofExcept r : New α).run
      (Ends (fun b s => s₀.SameBut s ∧ r.toOption = some b) (Refusing s₀ (r.toOption = none))) s := by
  rw [wp_ofExcept]
  cases r with
  | ok b => exact ⟨hs, rfl⟩
  | error e =>
    cases e with
    | refused why msg =>
      obtain rfl := h why msg rfl
      exact ⟨nofun, hs, rfl⟩
    | failed e => trivial

theorem readLine_refused {lines : List (Result Text)} {why : Reason} {msg : Text}
    (h : readLine lines = .error (.refused why msg)) : why = .unanswered := by
  cases lines with
  | nil =>
    cases h
    rfl
  | cons l lines =>
    cases l <;> cases h

theorem chooseFrom_refused {n : ℕ} {lines : List (Result Text)} {why : Reason} {msg : Text}
    (h : chooseFrom n lines = .error (.refused why msg)) : why = .unanswered := by
  induction lines with
  | nil =>
    cases h
    rfl
  | cons l lines ih =>
    cases l with
    | error e => cases h
    | ok l =>
      unfold chooseFrom at h
      split at h
      · split_ifs at h
        exact ih h
      · exact ih h

theorem askStore_refused {source : Source} {lines : List (Result Text)} {why : Reason} {msg : Text}
    (h : askStore source lines = .error (.refused why msg)) : why = .unanswered := by
  unfold askStore at h
  split_ifs at h
  unfold yesNo at h
  cases hread : readLine lines with
  | ok p =>
    rw [hread] at h
    cases h
  | error e =>
    rw [hread] at h
    cases h
    exact readLine_refused hread

/-! ### Before the create -/

theorem wp_settleStorage {flag configured : Option Text} {content what configKey : Text} {s : Cluster}
    (hs : s₀.SameBut s) : wp clusterWorld free
      (settleStorage ctx flag configured content what configKey t).run
      (Ends (fun p s => s₀.SameBut s ∧ s₀.storageFor flag configured content t = some p)
        (Refusing s₀ (s₀.storageFor flag configured content t = none))) s := by
  unfold settleStorage Cluster.storageFor
  cases flag with
  | some v => exact ⟨hs, rfl⟩
  | none =>
    cases configured with
    | some v => exact ⟨hs, rfl⟩
    | none =>
      rw [wp_bind]
      refine wp_newRun (refusing_failsFreely _ _) fun r s' hr rows hrows => ?_
      obtain ⟨rfl, hanswer⟩ := hr
      obtain rfl : rows = s₀.storages content :=
        (hanswer rows hrows).trans (congrFun hs.storages content)
      dsimp only
      by_cases hnone : storageIds (s₀.storages content) = []
      · rw [if_pos hnone, if_pos (.inl hnone)]
        exact wp_refuse hs (by decide) rfl
      by_cases hterminal : t.interactive = true
      · rw [if_neg hnone, if_neg (not_not.mpr hterminal), if_neg (by simp [hnone, hterminal]), wp_bind]
        refine wp_ends_mono (wp_answer hs fun why msg h => ?_) ?_ (Refusing.mono fun h => by rw [h]; rfl)
        · unfold choose at h
          rw [if_neg hnone] at h
          exact chooseFrom_refused h
        · rintro p s ⟨hs, hp⟩
          exact ⟨hs, by rw [hp]; rfl⟩
      · rw [if_neg hnone, if_pos hterminal, if_pos (.inr hterminal)]
        exact wp_refuse hs (by decide) rfl

theorem wp_updateConfig {node : Text} {templateStorage storage : Option Text} {s : Cluster}
    {E : Stop → Cluster → Prop} (hE : FailsFreely E) (hs : s₀.SameBut s) :
    wp clusterWorld free (updateConfig x node templateStorage storage).run
      (Ends (fun _ => s₀.SameBut) E) s := by
  rw [updateConfig, wp_bind]
  refine wp_newRun hE fun r s' hr c _ => ?_
  obtain rfl : s' = s := hr
  rw [wp_bind]
  refine ends_mapError hE fun text _ => ?_
  rw [wp_bind]
  refine wp_newRun hE fun r s' hr _ _ => ?_
  have hs' : s₀.SameBut s' := by
    rcases hr with rfl | ⟨rfl, -⟩
    · rw [Cluster.SameBut] at hs ⊢
      rw [hs]
    · exact hs
  rw [wp_bind]
  exact wp_ends_mono (wp_host hE _ hs') (fun _ _ h => h) fun _ _ h => h

theorem wp_storeAsked {templateStorage storage : Option Text} {s : Cluster} {E : Stop → Cluster → Prop}
    (hE : FailsFreely E) (hs : s₀.SameBut s) :
    wp clusterWorld free (storeAsked x ctx templateStorage storage).run
      (Ends (fun _ => s₀.SameBut) E) s := by
  unfold storeAsked
  split_ifs
  · exact wp_updateConfig hE hs
  · exact hs

theorem wp_settleTemplateStorage {s : Cluster} (hs : s₀.SameBut s) :
    wp clusterWorld free (settleTemplateStorage ctx a t).run
      (Ends (fun p s => s₀.SameBut s ∧ s₀.templateStorageFor ctx a t = some p)
        (Refusing s₀ (s₀.templateStorageFor ctx a t = none))) s := by
  unfold settleTemplateStorage Cluster.templateStorageFor
  cases a.template.filter fun e => VZTMPL <:+: e with
  | some v => exact ⟨hs, rfl⟩
  | none => exact wp_settleStorage hs

/-- **Settling writes nothing but stored choices (proved)**; it refuses before anything else, and where
the cluster, the flags and the lines do not settle everything. -/
theorem wp_settled {s : Cluster} (hs : s₀.SameBut s) :
    wp clusterWorld free (settle x ctx a t).run
      (Ends (fun p s => s₀.SameBut s ∧ s₀.settles ctx a t = some p.1.1)
        (Refusing s₀ (s₀.settles ctx a t = none))) s := by
  rw [settle, wp_bind]
  refine wp_ends_mono (wp_settleTemplateStorage hs) ?_ (Refusing.mono fun h => by
    rw [Cluster.settles, h]; rfl)
  rintro ⟨⟨templateStorage, templateSource⟩, lines₁⟩ s ⟨hs, htemplate⟩
  rw [wp_bind]
  refine wp_ends_mono (wp_settleStorage hs) ?_ (Refusing.mono fun h => by
    simp only [Cluster.settles, htemplate, h, Option.bind_eq_bind, Option.bind_some, Option.bind_none])
  rintro ⟨⟨storage, storageSource⟩, lines₂⟩ s ⟨hs, hstorage⟩
  rw [wp_bind]
  refine wp_ends_mono (wp_answer hs fun _ _ => askStore_refused) ?_ (Refusing.mono fun h => by
    simp only [Cluster.settles, htemplate, hstorage, h, Option.bind_eq_bind, Option.bind_some,
      Option.bind_none])
  rintro ⟨storeTemplate, lines₃⟩ s ⟨hs, hfirst⟩
  rw [wp_bind]
  refine wp_ends_mono (wp_answer hs fun _ _ => askStore_refused) ?_ (Refusing.mono fun h => by
    simp only [Cluster.settles, htemplate, hstorage, hfirst, h, Option.bind_eq_bind, Option.bind_some,
      Option.bind_none])
  rintro ⟨storeStorage, lines₄⟩ s ⟨hs, hsecond⟩
  rw [wp_bind]
  refine wp_ends_mono (wp_storeAsked (refusing_failsFreely _ _) hs) (fun config s hs => ⟨hs, ?_⟩)
    fun _ _ h => h
  simp only [Cluster.settles, htemplate, hstorage, hfirst, hsecond, Option.bind_eq_bind, Option.bind_some]

/-- What is still so when the template is there. -/
def Cluster.SameGuests (s s' : Cluster) : Prop := s'.guests = s.guests ∧ s'.docs = s.docs

theorem Cluster.SameBut.sameGuests {s s' : Cluster} (h : s.SameBut s') : s.SameGuests s' :=
  ⟨h.guests, h.docs⟩

theorem wp_arch {s : Cluster} {E : Stop → Cluster → Prop} (hE : FailsFreely E) (hs : s₀.SameBut s) :
    wp clusterWorld free arch.run
      (Ends (fun name s => s₀.SameBut s ∧ name = trim s₀.architecture) E) s := by
  rw [arch, wp_bind]
  refine wp_newRun hE fun r s' hr out hout => ?_
  obtain ⟨rfl, hanswer⟩ := hr
  obtain rfl : out = s₀.architecture := (hanswer out hout).trans hs.architecture
  dsimp only
  split_ifs
  · exact hE _ _
  · exact ⟨hs, rfl⟩

theorem wp_newestVztmpl {storage pre : Text} {s : Cluster} {E : Stop → Cluster → Prop}
    (hE : FailsFreely E) (hs : s₀.SameBut s) :
    wp clusterWorld free (newestVztmpl ctx storage pre).run
      (Ends (fun v s => s₀.SameBut s ∧
        v = newestVolid (s₀.templates storage) pre (trim s₀.architecture)) E) s := by
  rw [newestVztmpl, wp_bind]
  refine wp_ends_mono (wp_arch hE hs) ?_ fun _ _ h => h
  rintro name s ⟨hs, rfl⟩
  rw [wp_bind]
  refine wp_newRun hE fun r s' hr rows hrows => ?_
  obtain ⟨rfl, hanswer⟩ := hr
  obtain rfl : rows = s₀.templates storage := (hanswer rows hrows).trans (congrFun hs.templates storage)
  exact ⟨hs, rfl⟩

theorem wp_downloadBase {storage : Text} {s : Cluster} (hs : s₀.SameBut s) :
    wp clusterWorld free (downloadBase ctx storage).run
      (Ends (fun _ s => s₀.SameGuests s ∧
          (newestAvailable s₀.available ctx.config.template.base (trim s₀.architecture)).isSome)
        (Refusing s₀
          (newestAvailable s₀.available ctx.config.template.base (trim s₀.architecture) = none))) s := by
  have hE : FailsFreely (Refusing s₀
      (newestAvailable s₀.available ctx.config.template.base (trim s₀.architecture) = none)) :=
    refusing_failsFreely _ _
  rw [downloadBase, wp_bind]
  refine wp_ends_mono (wp_arch hE hs) ?_ fun _ _ h => h
  rintro name s ⟨hs, rfl⟩
  rw [wp_bind]
  refine wp_ends_mono (wp_host hE _ hs) (fun _ s hs => ?_) fun _ _ h => h
  rw [wp_bind]
  refine wp_newRun hE fun r s' hr _ _ => ?_
  obtain rfl : s' = s := hr
  rw [wp_bind]
  refine wp_newRun hE fun r s'' hr out hout => ?_
  obtain ⟨rfl, hanswer⟩ := hr
  obtain rfl : out = s₀.available := (hanswer out hout).trans hs.available
  cases hnewest : newestAvailable s₀.available ctx.config.template.base (trim s₀.architecture) with
  | none => exact wp_refuse hs (by decide) rfl
  | some name =>
    rw [hnewest] at hE
    dsimp only
    rw [wp_bind]
    refine wp_ends_mono (wp_host hE _ hs) (fun _ s hs => ?_) fun _ _ h => h
    rw [wp_bind]
    refine wp_newRun hE fun r s' hr _ _ => ?_
    rcases hr with rfl | ⟨rfl, -⟩
    · exact ⟨hs.sameGuests, rfl⟩
    · exact ⟨hs.sameGuests, rfl⟩

/-- **A template is found (proved)**, or `new` is refused where the cluster offers none. -/
theorem wp_resolve {storage : Text} {explicit : Option Text} {s : Cluster} (hs : s₀.SameBut s) :
    wp clusterWorld free (resolve ctx storage explicit).run
      (Ends (fun _ s => s₀.SameGuests s ∧ s₀.offers ctx storage explicit = true)
        (Refusing s₀ (s₀.offers ctx storage explicit = false))) s := by
  cases explicit with
  | some e =>
    unfold resolve Cluster.offers
    dsimp only
    split_ifs with hvolid
    · exact ⟨hs.sameGuests, by simp [hvolid]⟩
    · rw [wp_bind]
      refine wp_ends_mono (wp_newestVztmpl (refusing_failsFreely _ _) hs) ?_ fun _ _ h => h
      rintro v s ⟨hs, hv⟩
      cases v with
      | some v => exact ⟨hs.sameGuests, by simp [← hv]⟩
      | none => exact wp_refuse hs (by decide) (by simp [hvolid, ← hv])
  | none =>
    rw [resolve, wp_bind]
    refine wp_ends_mono (wp_newestVztmpl (refusing_failsFreely _ _) hs) ?_ fun _ _ h => h
    rintro v s ⟨hs, hv⟩
    cases v with
    | some v => exact ⟨hs.sameGuests, by simp only [Cluster.offers, ← hv, Option.isSome_some, Bool.true_or]⟩
    | none =>
      refine wp_ends_mono (wp_downloadBase hs) ?_ (Refusing.mono fun h => by
        simp only [Cluster.offers, ← hv, h, Option.isSome_none, Bool.or_self])
      rintro _ s ⟨hs, hsome⟩
      exact ⟨hs, by simp only [Cluster.offers, hsome, Bool.or_true]⟩

/-! ### From the create on -/

/-- The guest was made, and there is no document yet but one that was there. -/
structure Created (s₀ : Cluster) (vmid : ℕ) (s : Cluster) : Prop where
  free : s₀.guests vmid = none
  there : (s.guests vmid).isSome
  docs : s.docs = s₀.docs

theorem wp_createWrapper {w : WrapperSpec} {s : Cluster} {E : Stop → Cluster → Prop} (hE : FailsFreely E)
    (hs : s₀.SameGuests s) :
    wp clusterWorld free (createWrapper w).run (Ends (fun _ => Created s₀ w.vmid) E) s := by
  refine wp_newRun hE fun r s' hr b hb => ?_
  obtain ⟨g, rfl, hg⟩ := hr
  obtain ⟨hnone, hsome⟩ := hg hb
  have hguest : (s.withGuest w.vmid g).guests w.vmid = g := Function.update_self ..
  refine ⟨?_, ?_, hs.2⟩
  · rw [← hs.1]
    exact hnone
  · rw [hguest]
    exact hsome

/-- **The first document (proved)**: if it is refused, there was one before, and the guest is made. -/
theorem wp_writeInitial {text : Text} {s : Cluster} (hready : s₀.Ready ctx a t)
    (hs : Created s₀ a.vmid s) : wp clusterWorld free (writeInitial a.vmid text).run
      (Ends (fun _ _ => True) (Stopped s₀ ctx a t)) s := by
  refine ⟨trivial, fun r s' hr => ?_⟩
  cases r with
  | ok u => trivial
  | error e =>
    show Ends _ _ (.error (if isMismatch e then _ else _)) s'
    split_ifs with hmismatch
    · obtain ⟨rfl, hdoc⟩ := hr.1 e rfl hmismatch
      refine ⟨?_, fun hsame => ?_, hready⟩
      · rw [← hs.docs]
        exact hdoc
      · have hthere := hs.there
        rw [hsame, hs.free] at hthere
        cases hthere
    · trivial

/-- No refusal. -/
def Unrefused : Stop → Cluster → Prop
  | .refused _ _, _ => False
  | .failed _, _ => True

theorem wp_firstApply {template : Text} {s : Cluster} :
    wp clusterWorld free (firstApply x ctx a template).run (Ends (fun _ _ => True) Unrefused) s := by
  have hE : FailsFreely Unrefused := fun _ _ => trivial
  have hhost : ∀ {α : Type} (p : M α) (s : Cluster),
      wp clusterWorld free (New.host p).run (Ends (fun _ _ => True) Unrefused) s :=
    fun p s => wp_host hE p trivial
  rw [firstApply, wp_bind]
  refine wp_newRun hE fun _ s _ _ _ => ?_
  rw [wp_bind]
  refine wp_newRun hE fun _ s _ _ _ => ?_
  rw [wp_bind]
  refine wp_ends_mono (hhost _ s) (fun _ s _ => ?_) fun _ _ h => h
  rw [wp_bind]
  refine wp_ends_mono (hhost _ s) (fun _ s _ => ?_) fun _ _ h => h
  rw [wp_bind]
  refine wp_newRun hE fun _ s _ previous _ => ?_
  rw [wp_bind]
  refine wp_newRun hE fun _ s _ _ _ => ?_
  rw [wp_bind]
  exact wp_ends_mono (hhost _ s) (fun _ s _ => hhost _ s) fun _ _ h => h

/-- **`new` as a whole (proved).** -/
theorem wp_new : wp clusterWorld free (new x ctx a t).run
    (Ends (fun _ _ => True) (Stopped s₀ ctx a t)) s₀ := by
  have hE := stopped_failsFreely s₀ ctx a t
  have hstart : s₀.SameBut s₀ := rfl
  rw [new, wp_bind]
  refine wp_newRun hE fun r s hr owner howner => ?_
  obtain ⟨rfl, hanswer⟩ := hr
  obtain rfl : owner = s.guests a.vmid := hanswer owner howner
  dsimp only
  split_ifs with hused
  · have hrefused : Refusing s (s.guests a.vmid).isSome
        (.refused .inUse ("vmid " ++ dec a.vmid ++ " is already in use")) s := ⟨by decide, hstart, hused⟩
    exact Refusing.stopped (fun h hready => by rw [hready.1] at h; cases h) _ _ hrefused
  · have hfree : s.guests a.vmid = none := by simpa using hused
    rw [wp_bind]
    refine wp_ends_mono (wp_settled hstart) ?_ (Refusing.stopped fun h hready => ?_)
    swap
    · obtain ⟨-, storage, hsettled, -⟩ := hready
      cases h.symm.trans hsettled
    rintro ⟨⟨templateStorage, storage⟩, config⟩ s' ⟨hs, hsettled⟩
    rw [wp_bind]
    refine wp_ends_mono (wp_resolve hs) ?_ (Refusing.stopped fun h hready => ?_)
    swap
    · obtain ⟨-, storage', hsettled', hoffers⟩ := hready
      obtain rfl := Option.some.inj (hsettled.symm.trans hsettled')
      exact absurd hoffers (by simp [h])
    rintro template s' ⟨hs, hoffers⟩
    have hready : s.Ready ctx a t := ⟨hfree, templateStorage, hsettled, hoffers⟩
    rw [wp_bind]
    refine wp_ends_mono (wp_host hE _ hs) (fun _ s hs => ?_) fun _ _ h => h
    rw [wp_bind]
    refine wp_ends_mono (wp_createWrapper hE hs) (fun _ s hs => ?_) fun _ _ h => h
    rw [wp_bind]
    refine wp_ends_mono (wp_writeInitial hready hs) (fun _ s _ => ?_) fun _ _ h => h
    rw [wp_bind]
    refine wp_ends_mono (wp_host hE (J := fun _ => True) _ trivial) (fun _ s _ => ?_) fun _ _ h => h
    rw [wp_bind]
    refine wp_ends_mono (wp_host hE (J := fun _ => True) _ trivial) (fun _ s _ => ?_) fun _ _ h => h
    rw [wp_bind, wp_attempt]
    refine wp_mono (wp_firstApply (s := s)) fun r s hr => ?_
    rw [wp_bind]
    refine wp_ends_mono (wp_host hE (J := fun _ => True) _ trivial) (fun _ s' _ => ?_) fun _ _ h => h
    rw [wp_ofExcept]
    cases r with
    | ok u => trivial
    | error e =>
      cases e with
      | refused why msg => exact False.elim hr
      | failed e => trivial

/-- **A refused `new` leaves no guest behind (proved)**, and no document and no template of its own,
exactly when the vmid had no document or `new` could not get as far as the create: the vmid was in use,
a storage or a question was not settled, or no template matched. -/
theorem refused_iff {s s' : Cluster} {tr : List (Event newSig)} {why : Reason} {msg : Text}
    (h : Run clusterWorld s (new x ctx a t).run tr (.error (.refused why msg)) s') :
    s.SameBut s' ↔ s.docs a.vmid = none ∨ ¬ s.Ready ctx a t := by
  have hrun : Ends (fun _ _ => True) (Stopped s ctx a t)
      (.error (.refused why msg) : Except Stop Unit) s' := wp_run wp_new h
  have hend : Stopped s ctx a t (.refused why msg) s' := hrun
  by_cases hwhy : why = .hasDocument
  · subst hwhy
    obtain ⟨hdoc, hguest, hready⟩ := hend
    refine iff_of_false (fun hsame => hguest ?_) (by simp [hdoc, hready])
    rw [hsame.guests]
  · have hbefore : s.SameBut s' ∧ ¬ s.Ready ctx a t := by
      cases why with
      | hasDocument => exact absurd rfl hwhy
      | _ => exact hend
    exact iff_of_true hbefore.1 (.inr hbefore.2)

/-! ### A vmid that had a guest -/

/-- `new 105 --name web --template local:vztmpl/debian.tar.zst --storage local-lvm`. -/
def webArgs : NewArgs where
  vmid := 105
  name := "web"
  template := some "local:vztmpl/debian.tar.zst"
  storage := some "local-lvm"
  rootfsSize := none
  bridge := none
  ip := none
  gateway := none
  cores := none
  memory := none
  noUp := false

def newCtx : Ctx := { node := "pve", config := .default, tag := some "compose" }

def noTerminal : Terminal := ⟨false, []⟩

/-- A cluster with one guest, if any, and one document, if any, both of vmid 105. -/
def clusterOf (guest : Option (Text × Text)) (doc : Option Text) : Cluster where
  guests := fun v => if v = 105 then guest else none
  docs := fun v => if v = 105 then doc else none
  storages := fun _ => []
  templates := fun _ => []
  architecture := "amd64\n"
  available := []
  configFile := .notFound

def noYaml : External where
  docFromYaml := fun _ => bail "no YAML"
  configFromYaml := fun _ => bail "no YAML"
  toYaml := fun _ => bail "no YAML"
  digest := id

/-- A vmid that is in use is refused at once. -/
theorem refused_inUse : (clusterOf (some ("pve", "lxc")) (some "spec: ")).SameBut
    (clusterOf (some ("pve", "lxc")) (some "spec: ")) := by
  have hrun : Run clusterWorld (clusterOf (some ("pve", "lxc")) (some "spec: "))
      (new noYaml newCtx webArgs noTerminal).run
      [⟨.ownerNode 105, (.ok (some ("pve".toList, "lxc".toList)) : Result (Option (Text × Text)))⟩]
      (.error (.refused .inUse "vmid 105 is already in use"))
      (clusterOf (some ("pve", "lxc")) (some "spec: ")) :=
    .call ⟨rfl, fun g h => (Except.ok.inj h).symm⟩ .ret
  exact (refused_iff hrun).mpr (.inr fun hready => absurd hready.1 nofun)

/-- The error of `pve-meta set` on a document that is there. -/
def mismatchError : Error := ⟨["pve-meta set failed (exit 1): digest mismatch"]⟩

/-- **A document left behind by an earlier guest**: the new guest is made, and then refused. -/
theorem refused_leaves_guest : ∃ tr msg s',
    Run clusterWorld (clusterOf none (some "spec: ")) (new noYaml newCtx webArgs noTerminal).run tr
        (.error (.refused .hasDocument msg)) s' ∧
      s'.guests ≠ (clusterOf none (some "spec: ")).guests := by
  let s := clusterOf none (some "spec: ")
  let s' := s.withGuest 105 (some ("pve", "lxc"))
  have howner : newReply s (.ownerNode 105) (.ok none : Result _) s :=
    ⟨rfl, fun g h => (Except.ok.inj h).symm⟩
  have hcreate : ∀ args, newReply s (.create 105 args) (.ok () : Result Unit) s' := fun args =>
    ⟨some ("pve", "lxc"), rfl, fun _ => ⟨rfl, rfl⟩⟩
  have hmeta : newReply s' (.metaSet 105 initialDocument) (.error mismatchError : Result Unit) s' :=
    ⟨fun _ _ _ => ⟨rfl, nofun⟩, nofun, .inl rfl⟩
  refine ⟨_, _, s', .call howner (.call (r := ()) (show s = s from rfl)
    (.call (hcreate _) (.call hmeta .ret))), fun hsame => ?_⟩
  exact absurd (congrFun hsame 105) nofun

end PveCompose
