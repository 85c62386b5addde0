import PveCompose.Apply
import PveCompose.Lib.Assoc

/-!
# The reconcile loop (`ops/daemon.rs`)

`iteration` is one turn of the loop, from a poll to the sleep after it; `pass` is the walk over the
node's guests inside it; `attempt` is what is done for one guest under its lock.
-/

namespace PveCompose

open Programs

/-- The digest handled last, by guest. -/
abbrev Memo := List (ℕ × Text)

/-- What the loop carries from one turn to the next. -/
structure LoopState where
  config : Config
  lastToken : Text
  lastFull : ℤ
  memo : Memo

/-- What the loop is started with and never reads again. -/
structure LoopCtx where
  node : Text
  tag : Option Text
  interval : ℕ
  fullEvery : ℕ

def LoopCtx.ctx (l : LoopCtx) (config : Config) : Ctx := { node := l.node, config, tag := l.tag }

/-- `eprintln!` in the loop itself. -/
def say (msg : Text) : Prog sig Unit := Prog.ask (S := sig) (.report msg)

def watchdog : Prog sig Unit := Prog.ask (S := sig) (.notify "WATCHDOG=1\n")

/-- The pass looks at the guest. -/
def Listed.Reached (ctx : Ctx) (g : Listed) : Prop :=
  ¬ g.isTemplate ∧ g.running ∧ ctx.selected g.tags

variable (x : External)

/-! ### One guest -/

/-- What is said of a docker half that succeeded. -/
def dockerSaid (g : Guest) (started : Bool) : Text :=
  dec g.vmid ++ ": docker " ++ (if started then "applied"
    else if g.read.doc.policy.up = .manual then "rendered (up is manual, not started)"
    else "rendered (stack is down, not started)" : Text) ++ " " ++ g.read.digest.take 12

/-- The docker half of an attempt: skipped when the facts name this very document. -/
def dockerHalf (ctx : Ctx) (g : Guest) : M Unit := do
  let facts ← .issue (.readFacts g.vmid) id
  let applied := facts.any (·.digest = g.read.digest)
  if g.read.doc.policy.docker = .auto ∧ ¬ applied then do
    let started ← dockerApplyGuest x ctx g
      { pull := g.read.doc.policy.pull = .auto, noUp := g.read.doc.policy.up = .manual
        onlyIfUp := true }
    report (dockerSaid g started)
  else pure ()

/-- The pct half of an attempt, and the guest after it. -/
def pctHalf (ctx : Ctx) (g : Guest) : M Guest :=
  if g.read.doc.policy.pct = .auto then do
    let n ← pctApplyGuest ctx g
    if 0 < n then do
      report (dec g.vmid ++ ": pct applied " ++ dec n ++ " change(s)")
      refreshConfig ctx g
    else pure g
  else pure g

/-- The attempt for a document that was read, under the guest's lock. -/
def attempt (ctx : Ctx) (vmid : ℕ) (read : Read) : M Unit := withLock vmid do
  let g ← loadWith ctx read
  let g ← pctHalf ctx g
  dockerHalf x ctx g

/-- One guest of a pass: skipped, or read and, unless its digest is remembered, attempted. -/
def visit (ctx : Ctx) (memo : Memo) (l : Listed) : Prog sig Memo :=
  if l.isTemplate ∨ ¬ l.running ∨ ¬ ctx.selected l.tags then pure memo
  else do
    match ← (readDoc x l.vmid).run with
    | .error e => do
      say (dec l.vmid ++ ": " ++ e.display)
      pure memo
    | .ok none => pure memo
    | .ok (some read) =>
      if Assoc.get? l.vmid memo = some read.digest then pure memo
      else do
        match ← (attempt x ctx l.vmid read).run with
        | .error e => say (dec l.vmid ++ ": " ++ e.display)
        | .ok _ => pure ()
        watchdog
        pure (Assoc.set l.vmid read.digest memo)

def visitAll (ctx : Ctx) : Memo → List Listed → Prog sig Memo
  | memo, [] => pure memo
  | memo, l :: ls => do
    let memo ← visit x ctx memo l
    visitAll ctx memo ls

/-- `pass`; the memo comes back as far as the pass got. -/
def pass (ctx : Ctx) (memo : Memo) : Prog sig (Result Unit × Memo) := do
  match ← Prog.ask (S := sig) (.list ctx.node) with
  | .error e => pure (.error e, memo)
  | .ok ls => do
    let memo ← visitAll x ctx memo ls
    pure (.ok (), memo)

/-! ### One turn -/

/-- The config is read again; a changed one drops the memo. -/
def reload (st : LoopState) (file : FileRead) : Prog sig LoopState :=
  match Config.load x.configFromYaml file with
  | .ok c =>
    if c ≠ st.config then do
      say "configuration changed; planning every guest again"
      pure { st with config := c, memo := [] }
    else pure st
  | .error e => do
    say ("configuration not re-read: " ++ e.display)
    pure st

/-- `last_full.elapsed() >= full_every`, in nanoseconds. -/
def fullDue (l : LoopCtx) (st : LoopState) (now : ℤ) : Bool :=
  (l.fullEvery * 10 ^ 9 : ℤ) ≤ now - st.lastFull

/-- A full pass starts over with the memo and the clock. -/
def startFull (st : LoopState) (full : Bool) : Prog sig LoopState :=
  if full then do
    let t : ℤ ← Prog.ask (S := sig) .now
    pure { st with memo := [], lastFull := t }
  else pure st

/-- The pass of a turn, and the token remembered whatever came of it. -/
def passTurn (l : LoopCtx) (st : LoopState) (token : Text) : Prog sig LoopState := do
  let (r, memo) ← pass x (l.ctx st.config) st.memo
  match r with
  | .error e => say ("pass failed: " ++ e.display)
  | .ok _ => pure ()
  pure { st with memo, lastToken := token }

/-- One turn of the loop, from the poll to the sleep. -/
def iteration (l : LoopCtx) (st : LoopState) : Prog sig LoopState := do
  watchdog
  match ← Prog.ask (S := sig) .version with
  | .error e => do
    say ("version poll failed: " ++ e.display)
    Prog.ask (S := sig) (.sleep l.interval)
    pure st
  | .ok answer => do
    let token := answer.getD []
    let full := fullDue l st (← Prog.ask (S := sig) .now)
    let file ← Prog.ask (S := sig) .loadConfig
    let st ← reload x st file
    let st ← if token ≠ st.lastToken ∨ full then do
        let st ← startFull st full
        passTurn x l st token
      else pure st
    Prog.ask (S := sig) (.sleep l.interval)
    pure st

/-- `run`, up to the loop: what it is started with. -/
def startLoop (ctx : Ctx) : Prog sig (LoopCtx × LoopState) := do
  let l : LoopCtx := { node := ctx.node, tag := ctx.tag, interval := max ctx.config.daemon.interval 5
                       fullEvery := max ctx.config.daemon.fullEvery 60 }
  let t : ℤ ← Prog.ask (S := sig) .now
  say ("pve-compose daemon on " ++ ctx.node ++ ": polling every " ++ dec l.interval
    ++ "s, full pass every " ++ dec l.fullEvery ++ "s")
  Prog.ask (S := sig) (.notify "READY=1\n")
  pure (l, { config := ctx.config, lastToken := [], lastFull := t - l.fullEvery * 10 ^ 9, memo := [] })

/-- The first `n` turns. -/
def turns (l : LoopCtx) : ℕ → LoopState → Prog sig LoopState
  | 0, st => pure st
  | n + 1, st => do
    let st ← iteration x l st
    turns l n st

/-- `run`, cut after `n` turns. -/
def runLoop (ctx : Ctx) (n : ℕ) : Prog sig (LoopCtx × LoopState) := do
  let (l, st) ← startLoop ctx
  let st ← turns x l n st
  pure (l, st)

end PveCompose
