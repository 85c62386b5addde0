import PveCompose.Host

/-!
# The verbs `apply` and `upgrade` (`ops/mod.rs`, `ops/apply.rs`, `ops/upgrade.rs`)

`pctApplyGuest` is the pct half, `dockerApplyGuest` the docker half, both for a guest that is
loaded; the verbs take the guest's lock, load the guest and run one half or both.
-/

namespace PveCompose

open Programs

def PREFIX : Text := "compose"

/-- What every verb needs. -/
structure Ctx where
  node : Text
  config : Config
  tag : Option Text
deriving DecidableEq

namespace Ctx

def limits (ctx : Ctx) : Limits := ctx.config.limitsFor ctx.node

def selected (ctx : Ctx) (tags : List Text) : Bool :=
  match ctx.tag with
  | some t => tags.any (· = t)
  | none => true

end Ctx

/-- A guest with its config and document loaded. -/
structure Guest where
  config : GuestConfig
  read : Read
  volumes : List Volume

namespace Guest

def vmid (g : Guest) : ℕ := g.config.vmid

def project (g : Guest) : Text :=
  match g.config.hostname with
  | some h => projectNameFrom h
  | none => "ct" ++ dec g.vmid

def owner (g : Guest) (ctx : Ctx) : Text := g.read.doc.stack.owner.getD ctx.config.defaults.owner

end Guest

/-- How `apply` and `upgrade` behave beyond the default. -/
structure Options where
  pull : Bool
  noUp : Bool
  onlyIfUp : Bool
deriving DecidableEq

variable (x : External)

/-! ### Loading a guest -/

/-- What `pve-meta get` answered, as the document read. -/
def readOutput (vmid : ℕ) (out : Output) : Result (Option Read) :=
  if out.status = 0 then do
    let doc ← withContext ("guest " ++ dec vmid ++ ": bad compose document")
      (parse x.docFromYaml out.stdout)
    .ok (some { vmid, text := out.stdout, digest := x.digest out.stdout, doc })
  else if out.status = 2 then .ok none
  else bail ("pve-meta get " ++ dec vmid ++ " " ++ PREFIX ++ " failed (exit " ++ decInt out.status
    ++ "): " ++ trim out.stderr)

/-- `doc::read`. -/
def readDoc (vmid : ℕ) : M (Option Read) :=
  .issue (.metaGet vmid) fun r => r >>= readOutput x vmid

/-- `load_with`. -/
def loadWith (ctx : Ctx) (read : Read) : M Guest := do
  let config ← readConfig ctx.node read.vmid
  let volumes ← .ofExcept (withContext ("guest " ++ dec read.vmid ++ ": compose.spec")
    (volumes read.doc.spec ctx.limits))
  pure { config, read, volumes }

/-- `load`. -/
def load (ctx : Ctx) (vmid : ℕ) : M Guest := do
  match ← readDoc x vmid with
  | none => .ofExcept (bail ("guest " ++ dec vmid ++ " has no compose document (no `" ++ PREFIX
      ++ "` subtree)"))
  | some read => loadWith ctx read

/-- `refresh_config`: the same guest with its config read again. -/
def refreshConfig (ctx : Ctx) (g : Guest) : M Guest := do
  let config ← readConfig ctx.node g.config.vmid
  pure { g with config }

/-- `require_running`. -/
def requireRunning (ctx : Ctx) (vmid : ℕ) : M Unit := do
  let status ← .issue (.status ctx.node vmid)
    (withContext ("guest " ++ dec vmid ++ ": cannot read status"))
  match status with
  | .running => pure ()
  | .stopped => .ofExcept (bail ("guest " ++ dec vmid ++ " is stopped; pve-compose only acts on "
      ++ "running guests (pct start " ++ dec vmid ++ ")"))
  | .other => .ofExcept (bail ("guest " ++ dec vmid ++ " is in an unexpected state"))

/-! ### The pct half -/

/-- What the plan of a loaded guest is derived from. -/
def pctInputs (ctx : Ctx) (g : Guest) : Inputs :=
  { node := ctx.node, config := ctx.config, tag := ctx.tag, guest := g.config, volumes := g.volumes }

/-- `pct_plan`. -/
def pctPlan (ctx : Ctx) (g : Guest) : Result Plan := build (pctInputs ctx g)

def Op.isSetFeatures : Op → Bool
  | .setFeatures _ => true
  | _ => false

/-- `pct_apply_guest`: the number of operations run. -/
def pctApplyGuest (ctx : Ctx) (g : Guest) : M ℕ := do
  let p ← .ofExcept (pctPlan ctx g)
  .forEach (fun n => report ("note: " ++ n)) p.notes
  if p.ops = [] then do
    report "pct: nothing to do"
    pure 0
  else do
    report ("pct: applying " ++ dec p.ops.length ++ " change(s) to " ++ dec g.vmid)
    let featuresChanged := p.ops.any Op.isSetFeatures
    match ← (executePlan g.config p).attempt with
    | .error e => do
      if featuresChanged then
        report ("pct: features were changed before this failed and take effect on restart; `pct "
          ++ "reboot " ++ dec g.vmid ++ "` before the next apply (" ++ e.outer ++ ")")
      .throw e
    | .ok _ =>
      if featuresChanged then
        .ofExcept (bail ("guest " ++ dec g.vmid ++ ": features changed and take effect on restart; "
          ++ "`pct reboot " ++ dec g.vmid ++ "`, then apply again"))
      else pure p.ops.length

/-! ### The docker half -/

/-- `vars`: the substitution values for a guest. -/
def vars (ctx : Ctx) (g : Guest) : Result Vars := do
  let (uid, gid) ← splitOwner (g.owner ctx)
  .ok { vmid := g.vmid, uid, gid, name := g.config.hostname.getD [], project := g.project }

/-- `apply::render`: the compose text the guest should have. -/
def renderGuest (ctx : Ctx) (g : Guest) : Result Text := do
  let vars ← vars ctx g
  render x.toYaml g.read.doc.spec g.volumes vars

def COMPOSE_FILE : Text := "/opt/stack/compose.yaml"

/-- The document asks for a service. -/
def hasServices (g : Guest) : Bool :=
  ((g.read.doc.spec.get "services").bind Value.asMapping).elim false fun m => ! m.isEmpty

/-- Whether the stack is to be brought up, decided before the file is rewritten. -/
def wantsStart (g : Guest) (o : Options) (current : Option Text) : M Bool :=
  if o.noUp ∨ ¬ hasServices g then pure false
  else if o.onlyIfUp then
    if current.isSome then do
      let list ← .issue (.ps g.vmid) id
      pure (list.any (·.state = "running"))
    else pure false
  else pure true

/-- The file is written when it is not what the guest should have. -/
def putCompose (g : Guest) (current : Option Text) (text : Text) : M Unit :=
  if current ≠ some text then do
    report ("docker: writing " ++ COMPOSE_FILE)
    .issue (.writeCompose g.vmid text) id
  else pure ()

/-- Bring the stack up, or say why it is not. -/
def startStack (g : Guest) (o : Options) (start : Bool) : M Unit :=
  if start then do
    if o.pull then do
      report "docker: pull"
      .issue (.pull g.vmid) id
    report "docker: up"
    .issue (.up g.vmid) id
  else if ¬ hasServices g then
    report "docker: file written; no services in the document, nothing to start"
  else report ("docker: file written, stack not started; `pve-compose docker apply " ++ dec g.vmid
    ++ "` brings it up")

/-- `docker_apply_guest`: whether the stack was brought up. -/
def dockerApplyGuest (ctx : Ctx) (g : Guest) (o : Options) : M Bool := do
  ensureDocker g.vmid
  ensureLayout g.vmid (g.volumes.map fun v => (v.dir, v.owner.getD (g.owner ctx)))
  let text ← .ofExcept (renderGuest x ctx g)
  let current ← .issue (.readCompose g.vmid) id
  let start ← wantsStart g o current
  putCompose g current text
  startStack g o start
  let previous ← .issue (.readFacts g.vmid) id
  let facts ← factsNow g.read.digest previous
  .issue (.writeFacts g.vmid facts) id
  pure start

/-! ### The verbs -/

/-- `pct apply`. -/
def pctApply (ctx : Ctx) (vmid : ℕ) : M ℕ := withLock vmid do
  requireRunning ctx vmid
  let g ← load x ctx vmid
  pctApplyGuest ctx g

/-- `docker apply`. -/
def dockerApply (ctx : Ctx) (vmid : ℕ) (o : Options) : M Unit := withLock vmid do
  requireRunning ctx vmid
  let g ← load x ctx vmid
  let _ ← dockerApplyGuest x ctx g o
  pure ()

/-- The guest with its config read again, when the pct half changed something. -/
def refreshIfChanged (ctx : Ctx) (g : Guest) (changed : ℕ) : M Guest :=
  if 0 < changed then refreshConfig ctx g else pure g

/-- `apply_locked`: both halves, for a caller that holds the lock. -/
def applyLocked (ctx : Ctx) (vmid : ℕ) (o : Options) : M Unit := do
  requireRunning ctx vmid
  let g ← load x ctx vmid
  let changed ← pctApplyGuest ctx g
  let g ← refreshIfChanged ctx g changed
  let _ ← dockerApplyGuest x ctx g o
  pure ()

/-- The bare `apply`. -/
def apply (ctx : Ctx) (vmid : ℕ) (o : Options) : M Unit := withLock vmid (applyLocked x ctx vmid o)

/-- `docker upgrade`. -/
def dockerUpgrade (ctx : Ctx) (vmid : ℕ) (o : Options) : M Unit := dockerApply x ctx vmid o

/-- The bare `upgrade`. -/
def upgrade (ctx : Ctx) (vmid : ℕ) (o : Options) : M Unit := apply x ctx vmid o

end PveCompose
