import PveCompose.Config
import PveCompose.Doc
import PveCompose.Lib.Program
import PveCompose.Plan

/-!
# What the verbs ask of the outside (`cmd.rs`, `pct.rs`, `stack.rs`, `lock.rs`, `notify.rs`)

The verbs are programs (`M`) over the commands of `sig`: a poll of the store or of the node, a
`pct` call, a file in the guest, a compose call, the lock of a guest, the clock, a line on the
terminal.  Every command but the clock's and the terminal's may fail.  The libraries that read and
print YAML and the digest are one parameter, `External`.
-/

namespace PveCompose

open Programs

/-- The libraries the code calls: YAML both ways, and the digest of a text. -/
structure External where
  docFromYaml : Text → Result Doc
  configFromYaml : Text → Result Config
  toYaml : Value → Result Text
  digest : Text → Text

/-- A finished command. -/
structure Output where
  status : ℤ
  stdout : Text
  stderr : Text
deriving DecidableEq

inductive Status where
  | running : Status
  | stopped : Status
  | other : Status
deriving DecidableEq

/-- One container of the node's list. -/
structure Listed where
  vmid : ℕ
  running : Bool
  tags : List Text
  isTemplate : Bool
deriving DecidableEq

/-- One container of the stack. -/
structure Container where
  state : Text
deriving DecidableEq

/-- What the last apply recorded in the guest. -/
structure Facts where
  digest : Text
  template : Option Text
  appliedAt : Text
  version : Text
deriving DecidableEq

/-! ### Commands -/

inductive Cmd where
  | version : Cmd
  | loadConfig : Cmd
  | now : Cmd
  | wallClock : Cmd
  | sleep : ℕ → Cmd
  | notify : Text → Cmd
  | report : Text → Cmd
  | list : Text → Cmd
  | metaGet : ℕ → Cmd
  | lock : ℕ → ℕ → Cmd
  | unlock : ℕ → Cmd
  | status : Text → ℕ → Cmd
  | config : Text → ℕ → Cmd
  | pct : ℕ → Op → Call → Cmd
  | dockerInfo : ℕ → Cmd
  | dockerInstall : ℕ → Cmd
  | exec : ℕ → Text → Cmd
  | ps : ℕ → Cmd
  | readCompose : ℕ → Cmd
  | writeCompose : ℕ → Text → Cmd
  | pull : ℕ → Cmd
  | up : ℕ → Cmd
  | readFacts : ℕ → Cmd
  | writeFacts : ℕ → Facts → Cmd
deriving DecidableEq

/-- What a command is answered with.  A config is `none` when the answer is no JSON object, a token
when the answer has none. -/
abbrev Cmd.Answer : Cmd → Type
  | .version => Result (Option Text)
  | .loadConfig => FileRead
  | .now => ℤ
  | .wallClock => Text
  | .sleep _ | .notify _ | .report _ | .unlock _ => Unit
  | .list _ => Result (List Listed)
  | .metaGet _ | .exec _ _ => Result Output
  | .status _ _ => Result Status
  | .config _ _ => Result (Option PveConfig)
  | .dockerInfo _ => Result ℤ
  | .ps _ => Result (List Container)
  | .readCompose _ => Result (Option Text)
  | .readFacts _ => Result (Option Facts)
  | .lock _ _ | .pct _ _ _ | .dockerInstall _ | .writeCompose _ _ | .pull _ | .up _
  | .writeFacts _ _ => Result Unit

abbrev sig : Sig := ⟨Cmd, Cmd.Answer⟩

/-- A program of the repository: it issues commands, and may end in an error. -/
abbrev M := Fallible sig Error

/-- `{e:#}`: the whole chain on one line. -/
def Error.display (e : Error) : Text := List.intercalate ": " e.chain

/-- `{e}`: the outermost message. -/
def Error.outer (e : Error) : Text := e.chain.headD []

def decInt : ℤ → Text
  | .ofNat n => dec n
  | .negSucc n => '-' :: dec (n + 1)

/-- `eprintln!`. -/
def report (msg : Text) : M Unit := .issue (.report msg) .ok

/-- `GuestLock::take`, and the guard dropped at the end of the block, whatever its result. -/
def withLock {α : Type} (vmid : ℕ) (body : M α) : M α := do
  .issue (.lock vmid 60) id
  let r ← body.attempt
  .issue (.unlock vmid) .ok
  .ofExcept r

/-! ### The wrapper -/

/-- `pct::config`. -/
def readConfig (node : Text) (vmid : ℕ) : M GuestConfig := do
  let v ← .issue (.config node vmid) (withContext ("guest " ++ dec vmid ++ ": cannot read config"))
  match v with
  | none => .ofExcept (bail ("config of " ++ dec vmid ++ " is not an object"))
  | some conf => .ofExcept (parseConfig vmid conf)

/-- `pct::exec`: a non-zero exit is an error. -/
def exec (vmid : ℕ) (script : Text) : M Output := do
  let out ← .issue (.exec vmid script) id
  if out.status ≠ 0 then
    .ofExcept (bail ("in guest " ++ dec vmid ++ ": `" ++ script ++ "` failed (exit "
      ++ decInt out.status ++ "): " ++ trim out.stderr))
  else pure out

/-- `plan::execute`: every operation is said and called, up to the first call that fails. -/
def executePlan (g : GuestConfig) (p : Plan) : M Unit :=
  Fallible.forEach (fun oc => do
    report ("  " ++ oc.1.display)
    .issue (.pct g.vmid oc.1 oc.2) id) (execute g p)

/-! ### The stack -/

def FACTS_DIR : Text := STACK_DIR ++ "/.pve-compose"

/-- `ensure_layout`: the directories, each owned as asked where it is still root's. -/
def ensureLayout (vmid : ℕ) (owners : List (Text × Text)) : M Unit := do
  let script : Text := "set -e; mkdir -p " ++ VOLUMES_DIR ++ " " ++ FACTS_DIR ++ "; chmod 0755 "
    ++ STACK_DIR ++ ";"
  let one := fun (o : Text × Text) => " mkdir -p '".toList ++ o.1
    ++ "'; if [ \"$(stat -c %u:%g '" ++ o.1 ++ "')\" = '0:0' ]; then chown '" ++ o.2 ++ "' '"
    ++ o.1 ++ "'; fi;"
  let _ ← exec vmid (script ++ owners.flatMap one)
  pure ()

/-- `facts_now`: new facts, with what the previous ones knew about the wrapper. -/
def factsNow (digest : Text) (previous : Option Facts) : M Facts := do
  let appliedAt ← .issue .wallClock .ok
  pure { digest, template := previous.bind Facts.template, appliedAt, version := "0.0.7" }

/-- `provision::ensure_docker`. -/
def ensureDocker (vmid : ℕ) : M Unit := do
  let status ← .issue (.dockerInfo vmid) id
  if status = 0 then pure ()
  else do
    let installed ← (Fallible.issue (.dockerInstall vmid) id : M Unit).attempt
    match installed with
    | .ok _ => pure ()
    | .error e =>
      .ofExcept (bail ("guest " ++ dec vmid ++ ": docker install failed: " ++ e.outer))

end PveCompose
