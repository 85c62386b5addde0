import PveCompose.LineDiff
import PveCompose.Lib.Embed
import PveCompose.Node

/-!
# What a human is shown: `diff` and `status` (`ops/diff.rs`, `ops/status.rs`)

`diff` prints what an apply would do, `status` one row a guest.  Both are programs over the commands of
an apply and over what only they ask: a line of output, the node's list with names, and the containers
of a stack with all that a table shows of them.

* `View` — the programs; `viewWorld` — the node, and what was printed so far;
* `only_diff`, `only_rows` — **PROVED**: neither issues a command of an apply but those that look, and
  `status` prints nothing before its end;
* `view_keeps` — whatever the end, the node is left as it is.
-/

namespace PveCompose

open Programs

/-! ### Commands -/

/-- One container of the stack, as a table shows it. -/
structure ContainerRow where
  service : Text
  name : Text
  state : Text
  status : Text
deriving DecidableEq

inductive ViewCmd where
  | host : Cmd → ViewCmd
  | print : Text → ViewCmd
  | named : Text → ViewCmd
  | containers : ℕ → ViewCmd

abbrev ViewCmd.Answer : ViewCmd → Type
  | .host c => c.Answer
  | .print _ => Unit
  | .named _ => Result (List (Listed × Text))
  | .containers _ => Result (List ContainerRow)

abbrev viewSig : Sig := ⟨ViewCmd, ViewCmd.Answer⟩

abbrev View := Fallible viewSig Error

def viewEmbedding : Embedding sig viewSig := ⟨.host, fun _ r => r⟩

namespace View

/-- A program of an apply. -/
def host {α : Type} (p : M α) : View α := p.embed viewEmbedding id

/-- `print!`. -/
def print (text : Text) : View Unit := .issue (S := viewSig) (.print text) .ok

/-- `println!`. -/
def println (line : Text) : View Unit := print (line ++ "\n")

end View

/-! ### `diff` -/

/-- `pct_diff_guest`. -/
def pctDiffGuest (ctx : Ctx) (g : Guest) : View Unit := do
  let p ← .ofExcept (pctPlan ctx g)
  .forEach (fun n => View.println ("note: " ++ n)) p.notes
  if p.ops = [] then View.println "pct: up to date"
  else .forEach (fun op => View.println ("pct: " ++ op.display)) p.ops

/-- What is printed of the facts. -/
def factsSaid (digest : Text) : Option Facts → Text
  | some f =>
    if f.digest = digest then "docker: document unchanged since last apply (" ++ f.appliedAt ++ ")"
    else "docker: document changed since last apply (" ++ f.appliedAt ++ ")"
  | none => "docker: never applied"

/-- What is printed of the compose file; there always is a line diff. -/
def composeSaid (present want : Text) : List Text :=
  if present ≠ want then
    ["docker: " ++ COMPOSE_FILE ++ " differs:\n", (lineDiff present want).getD []]
  else ["docker: " ++ COMPOSE_FILE ++ " up to date\n"]

theorem factsSaid_same {digest : Text} {f : Facts} (h : f.digest = digest) :
    factsSaid digest (some f)
      = "docker: document unchanged since last apply (" ++ f.appliedAt ++ ")" := by
  unfold factsSaid
  exact if_pos h

theorem composeSaid_self (text : Text) :
    composeSaid text text = ["docker: " ++ COMPOSE_FILE ++ " up to date\n"] := by
  unfold composeSaid
  exact if_neg (not_not.mpr rfl)

variable (x : External)

/-- `docker_diff_guest`. -/
def dockerDiffGuest (ctx : Ctx) (g : Guest) : View Unit := do
  View.host (requireRunning ctx g.vmid)
  let want ← .ofExcept (renderGuest x ctx g)
  let present ← View.host (.issue (.readCompose g.vmid) id)
  let facts ← View.host (.issue (.readFacts g.vmid) id)
  View.println (factsSaid g.read.digest facts)
  .forEach View.print (composeSaid (present.getD []) want)

/-- `pct_diff`. -/
def pctDiff (ctx : Ctx) (vmid : ℕ) : View Unit := do
  let g ← View.host (load x ctx vmid)
  pctDiffGuest ctx g

/-- `docker_diff`. -/
def dockerDiff (ctx : Ctx) (vmid : ℕ) : View Unit := do
  let g ← View.host (load x ctx vmid)
  dockerDiffGuest x ctx g

/-- `diff`. -/
def diff (ctx : Ctx) (vmid : ℕ) : View Unit := do
  let g ← View.host (load x ctx vmid)
  pctDiffGuest ctx g
  dockerDiffGuest x ctx g

/-! ### `status` -/

/-- Which half is reported. -/
inductive Level where
  | pct : Level
  | docker : Level
  | both : Level
deriving DecidableEq

structure Row where
  vmid : ℕ
  name : Text
  node : Text
  running : Bool
  policy : Option Text
  state : Text
  appliedAt : Option Text
  template : Option Text
  pctPending : Option ℕ
  containers : List ContainerRow
deriving DecidableEq

def mode : Mode → Text
  | .auto => "auto"
  | .manual => "manual"

/-- A row of which nothing but the list's answer is known. -/
def Row.listed (ctx : Ctx) (l : Listed × Text) : Row :=
  { vmid := l.1.vmid, name := l.2, node := ctx.node, running := l.1.running, policy := none, state := []
    appliedAt := none, template := none, pctPending := none, containers := [] }

def Row.fail (r : Row) (e : Error) : Row := { r with state := "error: " ++ e.display }

def policySaid (p : Policy) : Text :=
  "pct=" ++ mode p.pct ++ " docker=" ++ mode p.docker ++ " pull=" ++ mode p.pull

/-- The number of operations planned, where the level asks for it. -/
def pendingOf (ctx : Ctx) (g : Guest) (level : Level) : Result (Option ℕ) :=
  if level ≠ .docker then (pctPlan ctx g).map fun p => some p.ops.length else .ok none

/-- What the facts say. -/
def Row.withFacts (r : Row) (digest : Text) : Option Facts → Row
  | some f => { r with appliedAt := some f.appliedAt, template := f.template
                       state := if f.digest = digest then "applied" else "pending" }
  | none => { r with state := "never" }

/-- An operation that is pending makes the row so. -/
def Row.withPending (r : Row) : Row :=
  if r.state = "applied" ∧ 0 < r.pctPending.getD 0 then { r with state := "pending" } else r

/-- What the containers say, when they are known. -/
def Row.withContainers (r : Row) (level : Level) : Result (List ContainerRow) → Row
  | .error _ => r
  | .ok list =>
    let r := if level = .both then { r with containers := list } else r
    if r.state = "applied" ∧ ¬ list.any (·.state = "running") then { r with state := "down" } else r

/-- The docker half of a row. -/
def dockerRow (vmid : ℕ) (digest : Text) (level : Level) (r : Row) : Prog viewSig Row := do
  match ← Prog.ask (S := viewSig) (.host (.readFacts vmid)) with
  | .error e => pure (r.fail e)
  | .ok facts => do
    let list ← Prog.ask (S := viewSig) (.containers vmid)
    pure ((r.withFacts digest facts).withPending.withContainers level list)

/-- The row of a guest that is loaded. -/
def loadedRow (ctx : Ctx) (g : Guest) (vmid : ℕ) (level : Level) (r : Row) : Prog viewSig Row :=
  match pendingOf ctx g level with
  | .error e => pure (r.fail e)
  | .ok pending =>
    let r := { r with pctPending := pending }
    if level = .pct then
      pure { r with state := if r.pctPending = some 0 then "applied" else "pending" }
    else dockerRow vmid g.read.digest level r

/-- The row of a guest that runs and has a document. -/
def runningRow (ctx : Ctx) (read : Read) (vmid : ℕ) (level : Level) (r : Row) : Prog viewSig Row := do
  match ← (View.host (loadWith ctx read)).run with
  | .error e => pure (r.fail e)
  | .ok g => loadedRow ctx g vmid level r

/-- `row`. -/
def row (ctx : Ctx) (l : Listed × Text) (level : Level) : Option Read → Prog viewSig Row
  | none => pure { Row.listed ctx l with state := "no document" }
  | some read =>
    let r := { Row.listed ctx l with policy := some (policySaid read.doc.policy) }
    if ¬ l.1.running then pure { r with state := "stopped" }
    else runningRow ctx read l.1.vmid level r

/-- One guest of the list. -/
def rowOf (ctx : Ctx) (vmid : Option ℕ) (level : Level) (l : Listed × Text) :
    Prog viewSig (Option Row) :=
  if l.1.isTemplate ∨ ∃ v ∈ vmid, l.1.vmid ≠ v then pure none
  else do
    match ← (View.host (readDoc x l.1.vmid)).run with
    | .error e => pure (some ((Row.listed ctx l).fail e))
    | .ok read =>
      if vmid = none ∧ read.isNone ∧ ¬ ctx.selected l.1.tags then pure none
      else do
        let r ← row ctx l level read
        pure (some r)

def rowsOf (ctx : Ctx) (vmid : Option ℕ) (level : Level) : List (Listed × Text) → Prog viewSig (List Row)
  | [] => pure []
  | l :: ls => do
    let r ← rowOf x ctx vmid level l
    let rs ← rowsOf ctx vmid level ls
    pure (r.toList ++ rs)

/-- `rows`. -/
def rows (ctx : Ctx) (vmid : Option ℕ) (level : Level) : View (List Row) := do
  let ls ← .issue (S := viewSig) (.named ctx.node) id
  .lift (rowsOf x ctx vmid level ls)

/-! ### Nothing is changed -/

/-- The commands of a view: of those of an apply only such as look. -/
def ViewCmd.Looking : ViewCmd → Prop
  | .host (.metaGet _) => True
  | .host c => c.Plain
  | _ => True

/-- Those of `status`, which is printed once all is asked. -/
def ViewCmd.Asking : ViewCmd → Prop
  | .print _ => False
  | c => c.Looking

/-- What a command of a view does: a line of output is added to what was printed. -/
def Shown (s : Node × List Text) : (c : ViewCmd) → c.Answer → Node × List Text → Prop
  | .host c, r, s' => Effect s.1 c r s'.1 ∧ s'.2 = s.2
  | .print text, _, s' => s' = (s.1, s.2 ++ [text])
  | _, _, s' => s' = s

def viewWorld : World viewSig (Node × List Text) := ⟨Shown⟩

section

variable {x} {ctx : Ctx} {vmid : ℕ} {vmid? : Option ℕ} {g : Guest} {level : Level}

theorem plain_of_looking {c : Cmd} (h : (ViewCmd.host c).Looking) :
    c.Plain ∨ ∃ v, c = .metaGet v := by
  cases c with
  | metaGet v => exact .inr ⟨v, rfl⟩
  | _ => exact .inl h

theorem node_of_looking {s s' : Node × List Text} {c : ViewCmd} {r : c.Answer} (hc : c.Looking)
    (h : Shown s c r s') : s'.1 = s.1 := by
  cases c with
  | host c =>
    rcases plain_of_looking hc with hplain | ⟨v, rfl⟩
    · exact eq_of_plain hplain h.1
    · exact h.1.1
  | print text =>
    have hs : s' = (s.1, s.2 ++ [text]) := h
    rw [hs]
  | named node =>
    have hs : s' = s := h
    rw [hs]
  | containers v =>
    have hs : s' = s := h
    rw [hs]

theorem looking_host {α : Type} {p : M α} (h : Only (fun c => (ViewCmd.host c).Looking) p.run) :
    Only ViewCmd.Looking (View.host p).run :=
  only_bindProg (only_embed h) fun _ => trivial

theorem looking_plain {α : Type} {p : M α} (h : Only Cmd.Plain p.run) :
    Only ViewCmd.Looking (View.host p).run := by
  refine looking_host (only_mono h fun c hc => ?_)
  cases c with
  | metaGet v => trivial
  | _ => exact hc

theorem looking_println (line : Text) : Only ViewCmd.Looking (View.println line).run :=
  only_issue (S := viewSig) trivial _

theorem looking_pctDiffGuest : Only ViewCmd.Looking (pctDiffGuest ctx g).run := by
  refine only_bind (only_ofExcept _) fun p => ?_
  refine only_bind (only_forEach fun n _ => looking_println _) fun _ => ?_
  split_ifs
  · exact looking_println _
  · exact only_forEach fun op _ => looking_println _

theorem looking_dockerDiffGuest : Only ViewCmd.Looking (dockerDiffGuest x ctx g).run := by
  refine only_bind (looking_plain (plain_requireRunning _ _)) fun _ => ?_
  refine only_bind (only_ofExcept _) fun want => ?_
  refine only_bind (looking_plain (only_issue trivial _)) fun present => ?_
  refine only_bind (looking_plain (only_issue trivial _)) fun facts => ?_
  exact only_bind (looking_println _) fun _ => only_forEach fun t _ => only_issue (S := viewSig) trivial _

theorem looking_load : Only ViewCmd.Looking (View.host (load x ctx vmid)).run := by
  refine looking_host (only_bind (only_issue trivial _) fun read => ?_)
  cases read with
  | none => exact only_ofExcept _
  | some read =>
    refine only_mono (plain_loadWith ctx read) fun c hc => ?_
    cases c with
    | metaGet v => trivial
    | _ => exact hc

/-- **A diff looks (proved)**. -/
theorem only_diff : Only ViewCmd.Looking (diff x ctx vmid).run :=
  only_bind looking_load fun _ => only_bind looking_pctDiffGuest fun _ => looking_dockerDiffGuest

theorem asking_host {α : Type} {p : M α} (h : Only (fun c => (ViewCmd.host c).Looking) p.run) :
    Only ViewCmd.Asking (View.host p).run :=
  only_bindProg (only_embed (e := viewEmbedding) (only_mono h fun _ hc => hc)) fun _ => trivial

theorem asking_loadWith {read : Read} : Only ViewCmd.Asking (View.host (loadWith ctx read)).run := by
  refine asking_host (only_mono (plain_loadWith ctx read) fun c hc => ?_)
  cases c with
  | metaGet v => trivial
  | _ => exact hc

theorem asking_row {l : Listed × Text} (read : Option Read) :
    Only ViewCmd.Asking (row ctx l level read) := by
  cases read with
  | none => exact trivial
  | some read =>
    show Only (S := viewSig) ViewCmd.Asking (if _ then _ else _)
    split_ifs
    case neg => exact trivial
    refine only_bindProg asking_loadWith fun g => ?_
    cases g with
    | error e => exact trivial
    | ok g =>
      show Only ViewCmd.Asking (loadedRow ..)
      unfold loadedRow
      split
      · exact trivial
      · split_ifs
        · exact trivial
        · refine ⟨trivial, fun facts => ?_⟩
          cases facts with
          | error e => exact trivial
          | ok facts => exact ⟨trivial, fun _ => trivial⟩

theorem asking_rowOf (l : Listed × Text) : Only ViewCmd.Asking (rowOf x ctx vmid? level l) := by
  unfold rowOf
  split_ifs
  · exact trivial
  refine only_bindProg (asking_host (only_issue trivial _)) fun read => ?_
  cases read with
  | error e => exact trivial
  | ok read =>
    show Only (S := viewSig) ViewCmd.Asking (if _ then _ else _)
    split_ifs
    · exact trivial
    · exact only_bindProg (asking_row read) fun _ => trivial

/-- **A status asks (proved)**. -/
theorem only_rows : Only ViewCmd.Asking (rows x ctx vmid? level).run := by
  refine only_bind (only_issue (S := viewSig) trivial _) fun ls => ?_
  refine only_bindProg ?_ fun _ => trivial
  induction ls with
  | nil => exact trivial
  | cons l ls ih => exact only_bindProg (asking_rowOf l) fun _ => only_bindProg ih fun _ => trivial

/-- **What only looks leaves the node as it is (proved)**, whatever its end. -/
theorem view_keeps {α : Type} {p : Prog viewSig α} {s s' : Node × List Text} {tr : List (Event viewSig)}
    {r : α} (h : Only ViewCmd.Looking p) (hrun : Run viewWorld s p tr r s') : s'.1 = s.1 := by
  have hkeeps : wp viewWorld (fun _ _ => True) p (fun _ (s₁ : Node × List Text) => s₁.1 = s.1) s := by
    refine wp_only h (P := fun s₁ : Node × List Text => s₁.1 = s.1) (fun s₁ c r s₂ hc hs hr => ?_)
      (fun _ _ _ _ => trivial) rfl
    exact (node_of_looking hc hr).trans hs
  have hend := wp_run hkeeps hrun
  exact hend

end

end PveCompose
