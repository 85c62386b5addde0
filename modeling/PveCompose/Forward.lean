import PveCompose.CommandLine
import PveCompose.Create
import PveCompose.Views

/-!
# The command line, on whatever node it is typed (`main.rs`, `ops/mod.rs`)

A command about a guest is run on the node that has the guest: `main` looks it up, and where it is
another node types the same line there, over that node's own ssh, and waits.  The line is parsed there
again, and the guest looked up again.

* `Cli.main` — one process, from its arguments to the verb it carries out;
* `fleetWorld` — the nodes of a cluster, whose guests may move at any moment; an ssh is a process on
  another node, up to a given depth;
* `carried_once` — **PROVED**: what is typed is carried out at most once, as it was typed, on a node that
  had the guest when it was looked up there, and exactly once if all ends well;
* `carried_on_owner` — **PROVED**: where no guest moves, on the node that has it, over one ssh at most.
-/

namespace PveCompose

open Programs Shell

namespace Cli

/-! ### Commands (`Cmd`) -/

structure StatusArgs where
  vmid : Option ℕ
  json : Bool

inductive PctCmd where
  | apply (vmid : ℕ) (noUp : Bool) : PctCmd
  | diff (vmid : ℕ) : PctCmd
  | status : StatusArgs → PctCmd

inductive ConfigCmd where
  | set (key value : Text) : ConfigCmd
  | unset (key : Text) : ConfigCmd

inductive DockerCmd where
  | apply (vmid : ℕ) (noUp : Bool) : DockerCmd
  | diff (vmid : ℕ) : DockerCmd
  | status : StatusArgs → DockerCmd
  | upgrade (vmid : ℕ) : DockerCmd
  | compose (args : List Text) : DockerCmd

inductive Cmd where
  | apply (vmid : ℕ) (noUp : Bool) : Cmd
  | diff (vmid : ℕ) : Cmd
  | status : StatusArgs → Cmd
  | upgrade (vmid : ℕ) : Cmd
  | new : NewArgs → Cmd
  | config : Option ConfigCmd → Cmd
  | pct : PctCmd → Cmd
  | docker : DockerCmd → Cmd
  | daemon : Cmd

/-- `ApplyArgs::options`. -/
def applyOptions (noUp : Bool) : Options := { pull := false, noUp, onlyIfUp := false }

/-- `UpgradeArgs::options`. -/
def upgradeOptions : Options := { pull := true, noUp := false, onlyIfUp := false }

/-- `args.get(1).and_then(|s| s.parse().ok())`. -/
def composeVmid (args : List Text) : Option ℕ := args[1]? >>= parseU32

/-- `target`: the vmid a command is about, if it is about one. -/
def target : Cmd → Option ℕ
  | .apply vmid _ | .upgrade vmid | .diff vmid => some vmid
  | .status s => s.vmid
  | .new _ | .daemon | .config _ => none
  | .pct (.apply vmid _) | .pct (.diff vmid) => some vmid
  | .pct (.status s) => s.vmid
  | .docker (.apply vmid _) | .docker (.upgrade vmid) | .docker (.diff vmid) => some vmid
  | .docker (.status s) => s.vmid
  | .docker (.compose args) => composeVmid args

/-- What the match of `run` calls. -/
inductive Arm where
  | verb : ℕ → Verb → Arm
  | diff : ℕ → Arm
  | pctDiff : ℕ → Arm
  | dockerDiff : ℕ → Arm
  | showStatus : StatusArgs → Level → Arm
  | new : NewArgs → Arm
  | config : Option ConfigCmd → Arm
  | daemon : Arm

/-- The match of `run`. -/
def arm : Cmd → Result Arm
  | .apply vmid noUp => .ok (.verb vmid (.apply (applyOptions noUp)))
  | .diff vmid => .ok (.diff vmid)
  | .status s => .ok (.showStatus s .both)
  | .upgrade vmid => .ok (.verb vmid (.upgrade upgradeOptions))
  | .new a => .ok (.new a)
  | .daemon => .ok .daemon
  | .config c => .ok (.config c)
  | .pct (.apply vmid _) => .ok (.verb vmid .pctApply)
  | .pct (.diff vmid) => .ok (.pctDiff vmid)
  | .pct (.status s) => .ok (.showStatus s .pct)
  | .docker (.apply vmid noUp) => .ok (.verb vmid (.dockerApply (applyOptions noUp)))
  | .docker (.diff vmid) => .ok (.dockerDiff vmid)
  | .docker (.status s) => .ok (.showStatus s .docker)
  | .docker (.upgrade vmid) => .ok (.verb vmid (.dockerUpgrade upgradeOptions))
  | .docker (.compose args) =>
    match composeVmid args with
    | some vmid => .ok (.verb vmid (.compose (args.headD [] :: args.drop 2)))
    | none => bail ("usage: pve-compose docker " ++ args.headD [] ++ " <vmid> [compose arguments]")

end Cli

/-! ### One process -/

/-- What a process asks of its node, before the verb and for it. -/
inductive RouteCmd where
  | nodename : RouteCmd
  | loadConfig : RouteCmd
  | prefixFile : Text → RouteCmd
  | ownerNode : ℕ → RouteCmd
  | sshCommand : Text → RouteCmd
  | report : Text → RouteCmd
  | streamTty : Text → List Text → RouteCmd
  | carryOut : Ctx → Cli.Arm → RouteCmd

abbrev RouteCmd.Answer : RouteCmd → Type
  | .nodename | .sshCommand _ => Result Text
  | .loadConfig | .prefixFile _ => FileRead
  | .ownerNode _ => Result (Option (Text × Text))
  | .report _ => Unit
  | .streamTty _ _ | .carryOut _ _ => Result Unit

abbrev routeSig : Sig := ⟨RouteCmd, RouteCmd.Answer⟩

abbrev Route := Fallible routeSig Error

def Route.command {α : Type} (c : RouteCmd) (f : c.Answer → Result α) : Route α :=
  .issue (S := routeSig) c f

/-- The libraries the command line needs: the parser of its arguments, and YAML. -/
structure Frontend where
  parse : List Text → Option Cli.Cmd
  configFromYaml : Text → Result Config
  yaml : Text → Result Value

/-- What the selector of a prefix file says: the tag, or none where it is `{ all: true }`. -/
def selectorOf (path : Text) (v : Value) : Result (Option Text) :=
  let sel := (v.get "selector").getD .null
  match (sel.get "tag").bind Value.asStr with
  | some t => .ok (some t)
  | none =>
    if (sel.get "all").bind flagOf = some true then .ok none
    else bail (path ++ ": selector is neither \x7b tag: <t> \x7d nor \x7b all: true \x7d")

variable (f : Frontend)

/-- The loop of `selector_tag` over the files there may be. -/
def selectorFrom : List Text → Route (Option Text)
  | [] => .ofExcept (bail ("no prefix file for `" ++ PREFIX ++ "` under /etc/pve/meta.d/prefixes or "
      ++ "/usr/share/pve-meta/prefixes (is pve-compose installed correctly?)"))
  | path :: rest => do
    match ← Route.command (.prefixFile path) .ok with
    | .notFound => selectorFrom rest
    | .failed e => .ofExcept (.error ⟨("reading " ++ path) :: e.chain⟩)
    | .text t => .ofExcept (withContext (path ++ ": not YAML") (f.yaml t) >>= selectorOf path)

/-- `selector_tag`. -/
def selectorTag : Route (Option Text) :=
  selectorFrom f ["/etc/pve/meta.d/prefixes/" ++ PREFIX ++ ".yaml",
    "/usr/share/pve-meta/prefixes/" ++ PREFIX ++ ".yaml"]

/-- `Ctx::load`. -/
def loadCtx : Route Ctx := do
  let node ← Route.command .nodename id
  let config ← Route.command .loadConfig (Config.load f.configFromYaml)
  let tag ← selectorTag f
  pure { node, config, tag }

/-- `split('\0').filter(|s| !s.is_empty())`. -/
def sshWords (stdout : Text) : List Text := (stdout.splitOn (Char.ofNat 0)).filter (· ≠ [])

/-- `forward_if_remote`: whether the line has run on another node. -/
def forwardIfRemote (ctx : Ctx) (vmid : ℕ) (argv : List Text) : Route Bool := do
  match ← Route.command (.ownerNode vmid) id with
  | none => .ofExcept (bail ("no guest " ++ dec vmid ++ " in the cluster"))
  | some (node, kind) =>
    if kind ≠ "lxc" then .ofExcept (bail ("guest " ++ dec vmid ++ " is not a container"))
    else if node = ctx.node then pure false
    else do
      let out ← Route.command (.sshCommand node) id
      let ssh := sshWords out
      if ssh = [] then .ofExcept (bail ("cannot build the ssh command for node " ++ node))
      else do
        Route.command (.report ("guest " ++ dec vmid ++ " is on " ++ node ++ "; running there")) .ok
        Route.command (.streamTty (forwardCommand ssh argv).1 (forwardCommand ssh argv).2) id
        pure true

/-- `run`. -/
def Cli.run (cmd : Cli.Cmd) (argv : List Text) : Route Unit := do
  let ctx ← loadCtx f
  let forwarded ← (target cmd).elim (pure false) fun vmid => forwardIfRemote ctx vmid argv
  if forwarded then pure ()
  else do
    let a ← .ofExcept (arm cmd)
    Route.command (.carryOut ctx a) id

/-- `main`, on the arguments after the program's name. -/
def Cli.main (argv : List Text) : Route Unit :=
  match f.parse argv with
  | none => .throw ⟨["usage"]⟩
  | some cmd => run f cmd argv

/-! ### The cluster -/

/-- What a process on a node was told of a guest. -/
structure Lookup where
  node : Text
  vmid : ℕ
  owner : Option (Text × Text)

/-- Where something was carried out, and what had been looked up last. -/
structure CarriedOut where
  node : Text
  arm : Cli.Arm
  seen : Option Lookup

/-- The cluster's guests, with what was looked up last, the connections made and what was carried out. -/
structure Fleet where
  owners : ℕ → Option (Text × Text)
  looked : Option Lookup
  hops : ℕ
  done : List CarriedOut

/-- A process on the given node, from its arguments to its end. -/
abbrev Process := Text → List Text → Fleet → Result Unit → Fleet → Prop

/-- The words of PVE's own command for an ssh to a node, and how the guests may have moved by the next
look. -/
structure Net where
  ssh : Text → List Text
  moves : (ℕ → Option (Text × Text)) → (ℕ → Option (Text × Text)) → Prop

/-- What a command of a process on `node` may be answered with, and do.  An ssh runs what its last
argument is read as, on the node it leads to; it fails where that fails, and may fail by itself. -/
def routeReply (c : Net) (process : Process) (node : Text) (s : Fleet) :
    (c : RouteCmd) → c.Answer → Fleet → Prop
  | .nodename, r, s' => s' = s ∧ ∀ n, r = .ok n → n = node
  | .sshCommand dest, r, s' => s' = s ∧ ∀ out, r = .ok out → sshWords out = c.ssh dest
  | .ownerNode vmid, r, s' => ∃ owners, c.moves s.owners owners ∧
      s' = { s with owners, looked := some ⟨node, vmid, owners vmid⟩ } ∧ ∀ o, r = .ok o → o = owners vmid
  | .streamTty program args, r, s' =>
    (s' = s ∧ ∃ e, r = .error e) ∨ ∃ dest line argv r', program :: args = c.ssh dest ++ ["-t".toList, line] ∧
      words line = some ("pve-compose".toList :: argv) ∧
        process dest argv { s with hops := s.hops + 1 } r' s' ∧ (r = .ok () → r' = .ok ())
  | .carryOut _ a, _, s' => s' = { s with done := s.done ++ [⟨node, a, s.looked⟩] }
  | .loadConfig, _, s' | .prefixFile _, _, s' | .report _, _, s' => s' = s

/-- The world of a process: an ssh from it is a process in the same world, `depth` deep at most. -/
def fleetWorld (c : Net) : ℕ → Text → World routeSig Fleet
  | 0, node => ⟨routeReply c (fun _ _ _ _ _ => False) node⟩
  | depth + 1, node => ⟨routeReply c (fun dest argv s r s' =>
      ∃ tr, Run (fleetWorld c depth dest) s (Cli.main f argv).run tr r s') node⟩

/-! ### What was typed -/

theorem words_remote (argv : List Text) :
    words ("pve-compose " ++ typed argv : Text) = some ("pve-compose".toList :: argv) := by
  show words ("pve-compose".toList ++ ' ' :: typed argv) = _
  rw [words, lex, Frame.empty, run_bareWord rfl, tokens_typed]
  show (bareWord "pve-compose" :: argv.map fun a => Token.word (quotedParts a)).mapM _ = _
  rw [List.mapM_cons, literal?_typed]
  rfl

theorem forwardCommand_cons {ssh : List Text} (h : ssh ≠ []) (argv : List Text) :
    (forwardCommand ssh argv).1 :: (forwardCommand ssh argv).2
      = ssh ++ ["-t".toList, "pve-compose " ++ typed argv] := by
  cases ssh with
  | nil => exact absurd rfl h
  | cons program args => rfl

/-- The last two words of an ssh are its own, and those before lead to the node. -/
theorem line_of_ssh {ssh ssh' argv argv' : List Text} {line : Text} (h : ssh ≠ [])
    (heq : (forwardCommand ssh argv).1 :: (forwardCommand ssh argv).2 = ssh' ++ ["-t".toList, line])
    (hwords : words line = some ("pve-compose".toList :: argv')) : ssh = ssh' ∧ argv' = argv := by
  rw [forwardCommand_cons h] at heq
  obtain ⟨hssh, hline⟩ := List.append_inj' heq rfl
  obtain rfl : line = "pve-compose " ++ typed argv := (List.cons.inj (List.cons.inj hline).2).1.symm
  rw [words_remote] at hwords
  exact ⟨hssh, (List.cons.inj (Option.some.inj hwords)).2.symm⟩

/-! ### One process after another -/

/-- No guest moves, and PVE's ssh commands lead each to a node of its own. -/
structure Unmoved (c : Net) : Prop where
  moves : ∀ o o', c.moves o o' → o' = o
  ssh : Function.Injective c.ssh

/-- What a process on `node` and those it starts have done. -/
structure Routed (c : Net) (cmd : Cli.Cmd) (node : Text) (s : Fleet) (r : Result Unit) (s' : Fleet) :
    Prop where
  once : (s'.done = s.done ∧ ∀ u, r ≠ .ok u) ∨ ∃ d, s'.done = s.done ++ [d] ∧ Cli.arm cmd = .ok d.arm ∧
    (Cli.target cmd).elim (d.node = node) fun vmid =>
      d.seen = some ⟨d.node, vmid, some (d.node, "lxc".toList)⟩
  still : Unmoved c → ∀ vmid, Cli.target cmd = some vmid → s'.owners = s.owners ∧
    s'.hops ≤ s.hops + (if s.owners vmid = some (node, "lxc".toList) then 0 else 1) ∧
      ∀ d, s'.done = s.done ++ [d] → d.seen.bind Lookup.owner = s.owners vmid

section

variable {f} {c : Net} {P : Process} {node : Text} {cmd : Cli.Cmd} {argv : List Text} {s s' : Fleet}

/-- Nothing was carried out. -/
theorem routed_none {e : Error} (hdone : s'.done = s.done) (howners : Unmoved c → s'.owners = s.owners)
    (hhops : s'.hops = s.hops) : Routed c cmd node s (.error e) s' where
  once := .inl ⟨hdone, nofun⟩
  still := fun h vmid _ => ⟨howners h, by rw [hhops]; exact Nat.le_add_right _ _, fun d hd => by
    rw [hdone] at hd
    exact absurd (congrArg List.length hd) (by simp)⟩

theorem wp_selectorFrom (paths : List Text) :
    wp ⟨routeReply c P node⟩ (fun _ _ => True) (selectorFrom f paths).run
      (Ends (fun _ s' => s' = s) fun _ s' => s' = s) s := by
  induction paths with
  | nil => exact rfl
  | cons path rest ih =>
    rw [selectorFrom, wp_bind, Route.command, wp_issue]
    refine ⟨trivial, fun r s' hs' => ?_⟩
    obtain rfl : s' = s := hs'
    cases r with
    | notFound => exact ih
    | failed e => exact rfl
    | text t =>
      show Ends _ _ (withContext _ (f.yaml t) >>= selectorOf path) _
      cases withContext (path ++ ": not YAML") (f.yaml t) >>= selectorOf path with
      | ok tag => exact rfl
      | error e => exact rfl

theorem wp_loadCtx :
    wp ⟨routeReply c P node⟩ (fun _ _ => True) (loadCtx f).run
      (Ends (fun ctx s' => s' = s ∧ ctx.node = node) fun _ s' => s' = s) s := by
  rw [loadCtx, wp_bind, Route.command, wp_issue]
  refine ⟨trivial, fun r s' hs' => ?_⟩
  obtain ⟨rfl, hnode⟩ := hs'
  cases r with
  | error e => exact rfl
  | ok n =>
    show wp _ _ (Fallible.run _) _ _
    rw [wp_bind, Route.command, wp_issue]
    refine ⟨trivial, fun file s₁ hs₁ => ?_⟩
    obtain rfl : s₁ = s' := hs₁
    cases Config.load f.configFromYaml file with
    | error e => exact rfl
    | ok config =>
      show wp _ _ (Fallible.run _) _ _
      rw [wp_bind]
      refine wp_ends_mono (wp_selectorFrom _) ?_ fun _ _ h => h
      rintro tag _ rfl
      exact ⟨rfl, hnode n rfl⟩

/-- What is left of a process that goes on by itself after it looked its guest up. -/
structure Stays (c : Net) (cmd : Cli.Cmd) (node : Text) (s s' : Fleet) : Prop where
  done : s'.done = s.done
  hops : s'.hops = s.hops
  owners : Unmoved c → s'.owners = s.owners
  looked : ∀ vmid, Cli.target cmd = some vmid →
    s'.looked = some ⟨node, vmid, some (node, "lxc".toList)⟩ ∧
      (Unmoved c → s.owners vmid = some (node, "lxc".toList))

/-- What a process does on the node it was sent to is what was done from here. -/
theorem routed_forwarded {vmid : ℕ} {dest dest' : Text} {owners : ℕ → Option (Text × Text)}
    {looked : Option Lookup} {r r' : Result Unit} (htarget : Cli.target cmd = some vmid)
    (howners : Unmoved c → owners = s.owners) (howner : owners vmid = some (dest, "lxc".toList))
    (hne : dest ≠ node) (hssh : c.ssh dest = c.ssh dest')
    (h : Routed c cmd dest' { s with owners, looked, hops := s.hops + 1 } r' s')
    (hr : r = .ok () → r' = .ok ()) : Routed c cmd node s r s' where
  once := by
    rcases h.once with ⟨hdone, hnot⟩ | ⟨d, hdone, harm, hseen⟩
    · exact .inl ⟨hdone, fun u hu => hnot () (hr hu)⟩
    · rw [htarget] at hseen
      refine .inr ⟨d, hdone, harm, ?_⟩
      rw [htarget]
      exact hseen
  still := fun hunmoved vmid' hvmid' => by
    obtain rfl := Option.some.inj (hvmid'.symm.trans htarget)
    obtain rfl := hunmoved.ssh hssh
    obtain rfl := howners hunmoved
    obtain ⟨howners', hhops, hseen⟩ := h.still hunmoved vmid' htarget
    refine ⟨howners', ?_, hseen⟩
    rw [if_pos howner] at hhops
    rw [if_neg fun hhere => hne (congrArg Prod.fst (Option.some.inj (howner.symm.trans hhere)))]
    exact hhops

/-- **The forwarding (proved)**: the line has run where it was sent, or it stays. -/
theorem wp_forwardIfRemote {ctx : Ctx} {vmid : ℕ} (hctx : ctx.node = node)
    (htarget : Cli.target cmd = some vmid)
    (hP : ∀ dest s r s', P dest argv s r s' → Routed c cmd dest s r s') :
    wp ⟨routeReply c P node⟩ (fun _ _ => True) (forwardIfRemote ctx vmid argv).run
      (Ends (fun b s' => if b then Routed c cmd node s (.ok ()) s' else Stays c cmd node s s')
        fun e s' => Routed c cmd node s (.error e) s') s := by
  subst hctx
  rw [forwardIfRemote, wp_bind, Route.command, wp_issue]
  refine ⟨trivial, fun r s₁ hs₁ => ?_⟩
  obtain ⟨owners, hmoves, rfl, hlooked⟩ := hs₁
  have howners : Unmoved c → owners = s.owners := fun h => h.moves _ _ hmoves
  have hstop : ∀ {e : Error} {looked : Option Lookup},
      Routed c cmd ctx.node s (.error e) { s with owners, looked } :=
    routed_none rfl howners rfl
  cases r with
  | error e => exact hstop
  | ok owner =>
    obtain rfl := hlooked owner rfl
    cases howner : owners vmid with
    | none => exact hstop
    | some o =>
      obtain ⟨dest, kind⟩ := o
      show wp _ _ (Fallible.run (if _ then _ else _)) _ _
      split_ifs with hkind hdest
      · exact hstop
      · -- the guest is here
        subst hdest
        obtain rfl := not_not.mp hkind
        refine ⟨rfl, rfl, howners, fun vmid' hvmid' => ?_⟩
        obtain rfl := Option.some.inj (hvmid'.symm.trans htarget)
        exact ⟨rfl, fun h => by rw [← howners h, howner]⟩
      · rw [wp_bind, Route.command, wp_issue]
        refine ⟨trivial, fun r s₂ hs₂ => ?_⟩
        obtain ⟨rfl, hssh⟩ := hs₂
        cases r with
        | error e => exact hstop
        | ok out =>
          show wp _ _ (Fallible.run (if _ then _ else _)) _ _
          split_ifs with hnone
          · exact hstop
          rw [wp_bind, Route.command, wp_issue]
          refine ⟨trivial, fun u s₃ hs₃ => ?_⟩
          obtain rfl := hs₃
          rw [ends_ok, wp_bind, Route.command, wp_issue]
          refine ⟨trivial, fun r s₄ hs₄ => ?_⟩
          have hsent : Routed c cmd ctx.node s r s₄ := by
            rcases hs₄ with ⟨rfl, e, rfl⟩ | ⟨dest', line, argv', r', heq, hwords, hrun, hr⟩
            · exact hstop
            · obtain ⟨hsame, rfl⟩ := line_of_ssh hnone heq hwords
              have hkind' : kind = "lxc".toList := not_not.mp hkind
              exact routed_forwarded htarget howners (hkind' ▸ howner) hdest ((hssh out rfl).symm.trans hsame)
                (hP dest' _ r' s₄ hrun) hr
          cases r with
          | error e => exact hsent
          | ok u => exact hsent

/-- What is carried out here. -/
theorem routed_here {s₂ : Fleet} {a : Cli.Arm} {r : Result Unit} (harm : Cli.arm cmd = .ok a)
    (h : Stays c cmd node s s₂) :
    Routed c cmd node s r { s₂ with done := s₂.done ++ [⟨node, a, s₂.looked⟩] } where
  once := by
    refine .inr ⟨⟨node, a, s₂.looked⟩, by rw [h.done], harm, ?_⟩
    cases htarget : Cli.target cmd with
    | none => exact rfl
    | some vmid => exact (h.looked vmid htarget).1
  still := fun hunmoved vmid hvmid => by
    refine ⟨h.owners hunmoved, (Nat.le_of_eq h.hops).trans (Nat.le_add_right _ _), fun d hd => ?_⟩
    have hlast : s₂.done ++ [⟨node, a, s₂.looked⟩] = s.done ++ [d] := hd
    obtain ⟨-, hlast⟩ := List.append_inj' hlast rfl
    obtain ⟨hlooked, howner⟩ := h.looked vmid hvmid
    rw [← (List.cons.inj hlast).1, howner hunmoved]
    exact congrArg (Option.bind · Lookup.owner) hlooked

/-- **One process (proved)**, where those it starts do as they should. -/
theorem wp_run_routed (hP : ∀ dest s r s', P dest argv s r s' → Routed c cmd dest s r s') :
    wp ⟨routeReply c P node⟩ (fun _ _ => True) (Cli.run f cmd argv).run
      (fun r s' => Routed c cmd node s r s') s := by
  rw [← ends_eta fun r s' => Routed c cmd node s r s', Cli.run, wp_bind]
  refine wp_ends_mono wp_loadCtx ?_ ?_
  · rintro ctx s₁ ⟨rfl, hctx⟩
    have hhere : ∀ {s₂}, Stays c cmd node s₁ s₂ → wp ⟨routeReply c P node⟩ (fun _ _ => True) (do
        let a ← Fallible.ofExcept (Cli.arm cmd)
        Route.command (.carryOut ctx a) id : Route Unit).run
        (Ends (fun u s' => Routed c cmd node s₁ (.ok u) s') fun e s' => Routed c cmd node s₁ (.error e) s')
        s₂ := by
      intro s₂ hstays
      rw [wp_bind, wp_ofExcept]
      cases harm : Cli.arm cmd with
      | error e => exact routed_none hstays.done hstays.owners hstays.hops
      | ok a =>
        refine ⟨trivial, fun r s₃ hs₃ => ?_⟩
        obtain rfl := hs₃
        cases r with
        | error e => exact routed_here harm hstays
        | ok u => exact routed_here harm hstays
    rw [wp_bind]
    cases htarget : Cli.target cmd with
    | none => exact hhere ⟨rfl, rfl, fun _ => rfl, fun vmid h => nomatch htarget.symm.trans h⟩
    | some vmid =>
      refine wp_ends_mono (wp_forwardIfRemote hctx htarget hP) (fun b s₂ hs₂ => ?_) fun _ _ h => h
      cases b with
      | true => exact hs₂
      | false => exact hhere hs₂
  · rintro e _ rfl
    exact routed_none rfl (fun _ => rfl) rfl

/-- **Every process (proved)**, however deep. -/
theorem wp_main (hcmd : f.parse argv = some cmd) (depth : ℕ) (node : Text) (s : Fleet) :
    wp (fleetWorld f c depth node) (fun _ _ => True) (Cli.main f argv).run
      (fun r s' => Routed c cmd node s r s') s := by
  have hmain : Cli.main f argv = Cli.run f cmd argv := by
    unfold Cli.main
    rw [hcmd]
  rw [hmain]
  induction depth generalizing node s with
  | zero => exact wp_run_routed nofun
  | succ depth ih =>
    refine wp_run_routed fun dest s r s' hrun => ?_
    obtain ⟨tr, hrun⟩ := hrun
    exact wp_run (ih dest s) (hmain ▸ hrun)

/-- **What is typed is carried out at most once (proved)**, as it was typed: a command about a guest on a
node that had that guest when the process there looked it up, any other one where it was typed; and
exactly once if all ends well. -/
theorem carried_once {depth : ℕ} {tr : List (Event routeSig)} {r : Result Unit}
    (hcmd : f.parse argv = some cmd)
    (h : Run (fleetWorld f c depth node) s (Cli.main f argv).run tr r s') :
    (s'.done = s.done ∧ r ≠ .ok ()) ∨ ∃ d, s'.done = s.done ++ [d] ∧ Cli.arm cmd = .ok d.arm ∧
      (Cli.target cmd).elim (d.node = node) fun vmid =>
        d.seen = some ⟨d.node, vmid, some (d.node, "lxc".toList)⟩ := by
  have hrouted := wp_run (wp_main hcmd depth node s) h
  exact hrouted.once.imp (fun hnone => ⟨hnone.1, hnone.2 ()⟩) id

/-- **Where no guest moves, the guest's node carries it out (proved)**, whatever node it was typed on, and
over one connection at most. -/
theorem carried_on_owner {depth vmid : ℕ} {tr : List (Event routeSig)} {r : Result Unit}
    (hunmoved : Unmoved c) (hcmd : f.parse argv = some cmd) (htarget : Cli.target cmd = some vmid)
    (h : Run (fleetWorld f c depth node) s (Cli.main f argv).run tr r s') :
    s'.hops ≤ s.hops + (if s.owners vmid = some (node, "lxc".toList) then 0 else 1) ∧
      ∀ d, s'.done = s.done ++ [d] → s.owners vmid = some (d.node, "lxc".toList) := by
  have hrouted := wp_run (wp_main hcmd depth node s) h
  obtain ⟨-, hhops, hseen⟩ := hrouted.still hunmoved vmid htarget
  refine ⟨hhops, fun d hd => ?_⟩
  rcases hrouted.once with ⟨hdone, -⟩ | ⟨d', hd', -, hlooked⟩
  · rw [hdone] at hd
    exact absurd (congrArg List.length hd) (by simp)
  · obtain ⟨-, hsame⟩ := List.append_inj' (hd'.symm.trans hd) rfl
    obtain rfl := (List.cons.inj hsame).1
    rw [htarget] at hlooked
    exact (hseen d' hd).symm.trans (congrArg (Option.bind · Lookup.owner) hlooked)

end

/-! ### Two nodes -/

/-- A front end that knows one command line. -/
def upgradeFrontend : Frontend where
  parse argv := if argv = ["upgrade", "105"] then some (.upgrade 105) else none
  configFromYaml _ := bail "no config"
  yaml _ := .ok (.mapping [(.string "selector", .mapping [(.string "all", .bool true)])])

def rootNet : Net := ⟨fun node => ["ssh", "root@" ++ node], fun o o' => o' = o⟩

theorem rootNet_unmoved : Unmoved rootNet where
  moves _ _ h := h
  ssh _ _ h := List.append_cancel_left (List.cons.inj (List.cons.inj h).2).1

/-- The guest 105 is on `pve2`. -/
def twoNodes : Fleet :=
  { owners := fun v => if v = 105 then some ("pve2", "lxc") else none, looked := none, hops := 0, done := [] }

/-- The text of PVE's command for a node. -/
def sshText (node : Text) : Text := "ssh".toList ++ Char.ofNat 0 :: "root@".toList ++ node

/-- A node from which no ssh gets anywhere. -/
def loneAnswer (node : Text) (s : Fleet) : (c : RouteCmd) → c.Answer × Fleet
  | .nodename => (.ok node, s)
  | .loadConfig => (.notFound, s)
  | .prefixFile _ => (.text [], s)
  | .ownerNode v => (.ok (s.owners v), { s with looked := some ⟨node, v, s.owners v⟩ })
  | .sshCommand dest =>
    (if sshWords (sshText dest) = rootNet.ssh dest then .ok (sshText dest) else .error ⟨[]⟩, s)
  | .report _ => ((), s)
  | .streamTty _ _ => (.error ⟨[]⟩, s)
  | .carryOut _ a => (.ok (), { s with done := s.done ++ [⟨node, a, s.looked⟩] })

theorem loneAnswer_reply {P : Process} (node : Text) (s : Fleet) (c : RouteCmd) :
    routeReply rootNet P node s c (loneAnswer node s c).1 (loneAnswer node s c).2 := by
  cases c with
  | nodename => exact ⟨rfl, fun n h => (Except.ok.inj h).symm⟩
  | ownerNode v => exact ⟨s.owners, rfl, rfl, fun o h => (Except.ok.inj h).symm⟩
  | sshCommand dest =>
    refine ⟨rfl, fun out h => ?_⟩
    by_cases hwords : sshWords (sshText dest) = rootNet.ssh dest
    · rw [show (loneAnswer node s (.sshCommand dest)).1 = .ok (sshText dest) from if_pos hwords] at h
      exact Except.ok.inj h ▸ hwords
    · rw [show (loneAnswer node s (.sshCommand dest)).1 = .error ⟨[]⟩ from if_neg hwords] at h
      cases h
  | streamTty program args => exact .inl ⟨rfl, _, rfl⟩
  | _ => rfl

def upgradeLine : List Text := ["upgrade", "105"]

/-- The line runs on `pve2`. -/
def onSecond (s : Fleet) : Result Unit × Fleet :=
  (Cli.main upgradeFrontend upgradeLine).run.interpret (loneAnswer "pve2") { s with hops := s.hops + 1 }

/-- A node from which an ssh gets to `pve2`. -/
def pairAnswer (s : Fleet) : (c : RouteCmd) → c.Answer × Fleet
  | .streamTty program args =>
    if program :: args = rootNet.ssh "pve2" ++ ["-t".toList, "pve-compose " ++ typed upgradeLine] then
      onSecond s
    else (.error ⟨[]⟩, s)
  | c => loneAnswer "pve1" s c

theorem pairAnswer_reply (s : Fleet) (c : RouteCmd) :
    (fleetWorld upgradeFrontend rootNet 1 "pve1").reply s c (pairAnswer s c).1 (pairAnswer s c).2 := by
  cases c with
  | streamTty program args =>
    by_cases hline : program :: args
        = rootNet.ssh "pve2" ++ ["-t".toList, "pve-compose " ++ typed upgradeLine]
    · rw [show pairAnswer s (.streamTty program args) = onSecond s from if_pos hline]
      have hreply : ∀ s c, (fleetWorld upgradeFrontend rootNet 0 "pve2").reply s c
          (loneAnswer "pve2" s c).1 (loneAnswer "pve2" s c).2 :=
        loneAnswer_reply (P := fun _ _ _ _ _ => False) "pve2"
      have hrun := run_trace hreply (Cli.main upgradeFrontend upgradeLine).run { s with hops := s.hops + 1 }
      exact .inr ⟨"pve2", _, upgradeLine, _, hline, words_remote _, ⟨_, hrun⟩, fun h => h⟩
    · rw [show pairAnswer s (.streamTty program args) = (.error ⟨[]⟩, s) from if_neg hline]
      exact .inl ⟨rfl, _, rfl⟩
  | nodename => exact ⟨rfl, fun n h => (Except.ok.inj h).symm⟩
  | ownerNode v => exact ⟨s.owners, rfl, rfl, fun o h => (Except.ok.inj h).symm⟩
  | sshCommand dest => exact loneAnswer_reply (P := fun _ _ _ _ _ => False) "pve1" s (.sshCommand dest)
  | _ => rfl

/-- What is left after an upgrade was typed on `pve1`. -/
def pairRun : Result Unit × Fleet :=
  (Cli.main upgradeFrontend upgradeLine).run.interpret pairAnswer twoNodes

theorem carried_once_pair : ∃ d, pairRun.2.done = [d] ∧
    d.seen = some ⟨d.node, 105, some (d.node, "lxc".toList)⟩ := by
  have hrun := run_trace pairAnswer_reply (Cli.main upgradeFrontend upgradeLine).run twoNodes
  have hparse : upgradeFrontend.parse upgradeLine = some (.upgrade 105) := rfl
  rcases carried_once hparse hrun with ⟨-, hnot⟩ | ⟨d, hdone, -, hseen⟩
  · exact absurd (by decide +kernel) hnot
  · exact ⟨d, hdone, hseen⟩

theorem carried_on_owner_pair : pairRun.2.hops ≤ 1 ∧ pairRun.2.done.length = 1 ∧
    ∀ d, pairRun.2.done = [d] → d.node = "pve2".toList := by
  have hrun := run_trace pairAnswer_reply (Cli.main upgradeFrontend upgradeLine).run twoNodes
  have hparse : upgradeFrontend.parse upgradeLine = some (.upgrade 105) := rfl
  obtain ⟨hhops, hnode⟩ := carried_on_owner rootNet_unmoved hparse rfl hrun
  refine ⟨hhops, by decide +kernel, fun d hd => ?_⟩
  exact (congrArg Prod.fst (Option.some.inj (hnode d hd))).symm

end PveCompose
