import PveCompose.Lib.Threads
import PveCompose.Session
import PveCompose.Visit

/-!
# Stopped guests (`ops/apply.rs`, `ops/daemon.rs`)

The loop and any number of hand-run verbs work on the guests of a node, and guests are started and
stopped at any moment.  A verb looks whether the guest runs after it has taken the lock; the loop
looks in the node's list, before it.

* `Watch` — who holds which lock, and which guests were seen running under it;
* `discipline` — **PROVED**: every verb calls only what it has seen running, and so does the
  loop where it gets no further than the guest's config (`Barred`);
* `touched_running` — **PROVED**: so it is in every such interleaving;
* `attempt_touches_iff` — **PROVED**: an attempt that has the lock calls the guest, unless it is barred;
* `touched_stopped` — a guest that is stopped after it was listed, and configured.
-/

namespace PveCompose

open Programs

/-- Who issues commands: the loop, by what it passes with, or a verb a human runs. -/
inductive Caller where
  | loop : Ctx → Caller
  | hand : ℕ → Caller
deriving DecidableEq

/-- The node's guests, with what was read and seen as history variables. -/
structure Watch where
  /-- The guests that run. -/
  running : ℕ → Bool
  /-- Who holds a guest's lock. -/
  holder : ℕ → Option Caller
  /-- The guests a caller has seen running since it took their lock. -/
  seen : Caller → ℕ → Bool
  /-- The document a caller read last. -/
  reading : Caller → Option Read

namespace Watch

variable {p q : Caller} {s s' s'' : Watch} {v : ℕ}

def take (s : Watch) (p : Caller) (v : ℕ) : Watch :=
  { s with
    holder := Function.update s.holder v (some p)
    seen := Function.update s.seen p (Function.update (s.seen p) v false) }

def release (s : Watch) (v : ℕ) : Watch := { s with holder := Function.update s.holder v none }

def see (s : Watch) (p : Caller) (v : ℕ) : Watch :=
  { s with seen := Function.update s.seen p (Function.update (s.seen p) v true) }

def reads (s : Watch) (p : Caller) (r : Option Read) : Watch :=
  { s with reading := Function.update s.reading p r }

def turn (s : Watch) (v : ℕ) (on : Bool) : Watch :=
  { s with running := Function.update s.running v on }

/-- The document an answer of the store holds. -/
def document (x : External) (v : ℕ) (r : Result Output) : Option Read :=
  match r >>= readOutput x v with
  | .ok found => found
  | .error _ => none

/-- What a command of a caller does, for each answer it may get.  The list and the status say what
runs; everything else is answered in any way, whether the guest runs or not. -/
def Act (x : External) (p : Caller) (s : Watch) : (c : Cmd) → c.Answer → Watch → Prop
  | .lock v _, r, s' => r = .ok () ∧ s.holder v = none ∧ s' = s.take p v ∨ (∀ u, r ≠ .ok u) ∧ s' = s
  | .unlock v, _, s' => s' = s.release v
  | .status _ v, r, s' => match r with
    | .ok .running => s.running v = true ∧ s' = s.see p v
    | .ok .stopped => s.running v = false ∧ s' = s
    | _ => s' = s
  | .metaGet v, r, s' => s' = s.reads p (document x v r)
  | .list _, r, s' => s' = s ∧ ∀ ls, r = .ok ls → ∀ l ∈ ls, l.running = s.running l.vmid
  | _, _, s' => s' = s

/-- A guest is started or stopped. -/
def Turned (s s' : Watch) : Prop := ∃ v on, s' = s.turn v on

/-- The loop passes, the others run verbs, on any guest. -/
inductive Starts (x : External) : Caller → Prog sig Unit → Prop where
  | pass (ctx : Ctx) (memo : Memo) : Starts x (.loop ctx) (pass x ctx memo).void
  | verb (n : ℕ) (ctx : Ctx) (v : ℕ) (verb : Verb) : Starts x (.hand n) (verb.run x ctx v).run.void

def threads (x : External) : Threads sig Watch Caller := ⟨Act x, Turned, Starts x⟩

/-- Every guest the command calls is locked by the caller, and was seen running under that lock. -/
def Observed (p : Caller) (s : Watch) (c : Cmd) : Prop :=
  ∀ call ∈ c.pctCalls, s.holder call.1 = some p ∧ s.seen p call.1 = true

end Watch

/-- With this config the attempt gets no further: it cannot be read, the volumes are refused, or the
plan is, of a pct half that is allowed. -/
def Barred (ctx : Ctx) (v : ℕ) (read : Option Read) (r : Result (Option PveConfig)) : Prop :=
  ∀ conf g, r = .ok (some conf) → parseConfig v conf = .ok g.config → read = some g.read →
    volumes g.read.doc.spec ctx.limits = .ok g.volumes →
    g.read.doc.policy.pct = .auto ∧ ∃ e, pctPlan ctx g = .error e

namespace Watch

/-- Every config the loop is given bars its attempt. -/
def Bars : Proviso sig Watch Caller
  | .loop ctx, s, .config _ v, r => Barred ctx v (s.reading (.loop ctx)) r
  | _, _, _, _ => True

/-! ### What each caller relies on -/

variable {x : External} {p q : Caller} {s s' s'' : Watch} {v : ℕ} {c : Cmd} {r : c.Answer}

/-- What a caller relies on while others have their turn. -/
structure Relied (p : Caller) (s s' : Watch) : Prop where
  seen : s'.seen p = s.seen p
  reading : s'.reading p = s.reading p
  held : ∀ v, s.holder v = some p → s'.holder v = some p

/-- What is asked of a caller's command: it unlocks what it holds. -/
structure Obliged (p : Caller) (s : Watch) (c : Cmd) : Prop where
  unlock : ∀ v, c = .unlock v → s.holder v = some p
  observed : Observed p s c

theorem relied_refl (p : Caller) (s : Watch) : Relied p s s := ⟨rfl, rfl, fun _ h => h⟩

theorem Relied.trans (h : Relied p s s') (h' : Relied p s' s'') : Relied p s s'' :=
  ⟨h'.seen.trans h.seen, h'.reading.trans h.reading, fun v hv => h'.held v (h.held v hv)⟩

/-- What a command may do: one lemma for all commands. -/
inductive Acted (p : Caller) (s : Watch) : Watch → Prop where
  | none : Acted p s s
  | took (v : ℕ) : s.holder v = .none → Acted p s (s.take p v)
  | released (v : ℕ) : s.holder v = some p → Acted p s (s.release v)
  | saw (v : ℕ) : Acted p s (s.see p v)
  | reads (r : Option Read) : Acted p s (s.reads p r)

theorem acted_of_act (h : Act x p s c r s') (hI : Obliged p s c) : Acted p s s' := by
  cases c with
  | lock v w =>
    rcases h with ⟨-, hnone, rfl⟩ | ⟨-, rfl⟩
    · exact .took v hnone
    · exact .none
  | unlock v =>
    obtain rfl : s' = s.release v := h
    exact .released v (hI.unlock v rfl)
  | status node v =>
    dsimp only [Act] at h
    split at h
    · exact h.2 ▸ .saw v
    · exact h.2 ▸ .none
    · exact h ▸ .none
  | metaGet v =>
    obtain rfl : s' = s.reads p (document x v r) := h
    exact .reads _
  | list node => exact h.1 ▸ .none
  | _ => exact (show s' = s from h) ▸ .none

/-- **The step lemma for the others (proved)**: the lock keeps them out. -/
theorem relied_of_acted (hq : q ≠ p) (h : Acted p s s') : Relied q s s' := by
  cases h with
  | none => exact relied_refl q s
  | took v hnone =>
    refine ⟨Function.update_of_ne hq _ _, rfl, fun v' hv' => ?_⟩
    have hne : v' ≠ v := by
      rintro rfl
      rw [hnone] at hv'
      cases hv'
    exact (Function.update_of_ne hne _ _).trans hv'
  | released v hp =>
    refine ⟨rfl, rfl, fun v' hv' => ?_⟩
    have hne : v' ≠ v := by
      rintro rfl
      rw [hp] at hv'
      exact hq (Option.some.inj hv').symm
    exact (Function.update_of_ne hne _ _).trans hv'
  | saw v => exact ⟨Function.update_of_ne hq _ _, rfl, fun _ h => h⟩
  | reads r => exact ⟨rfl, Function.update_of_ne hq _ _, fun _ h => h⟩

/-- The world of one caller. -/
abbrev world (x : External) (p : Caller) : World sig Watch :=
  (threads x).among Bars Relied (fun _ => True) p

/-- The caller holds the guest's lock. -/
def Holds (p : Caller) (v : ℕ) (s : Watch) : Prop := s.holder v = some p

/-- It has seen the guest running since. -/
structure Saw (p : Caller) (v : ℕ) (s : Watch) : Prop where
  holds : Holds p v s
  seen : s.seen p v = true

theorem obliged_of_saw (hc : c.At v) (h : Saw p v s) : Obliged p s c where
  unlock v' hv' := by
    subst hv'
    exact hc.elim
  observed call hcall := by
    rw [hc.pctCalls call hcall]
    exact ⟨h.holds, h.seen⟩

theorem obliged_of_noCalls (hunlock : ∀ v, c ≠ .unlock v) (hcalls : c.pctCalls = []) :
    Obliged p s c where
  unlock v hv := absurd hv (hunlock v)
  observed call hcall := by
    rw [hcalls] at hcall
    exact absurd hcall List.not_mem_nil

theorem obliged_unlock (h : Holds p v s) : Obliged p s (.unlock v) where
  unlock v' hv' := by
    cases hv'
    exact h
  observed := nofun

/-- A command inside a session leaves the locks and what was seen. -/
theorem act_at (hc : c.At v) (h : Act x p s c r s') : s'.holder = s.holder ∧ s'.seen = s.seen := by
  cases c with
  | lock _ _ => exact hc.elim
  | unlock _ => exact hc.elim
  | status _ _ => exact hc.elim
  | metaGet v =>
    obtain rfl : s' = s.reads p (document x v r) := h
    exact ⟨rfl, rfl⟩
  | list _ => exact h.1 ▸ ⟨rfl, rfl⟩
  | _ => exact (show s' = s from h) ▸ ⟨rfl, rfl⟩

/-- The libraries read documents, and nothing else. -/
theorem act_congr {y : External} (hc : ∀ v, c ≠ .metaGet v) (h : Act x p s c r s') : Act y p s c r s' := by
  cases c with
  | metaGet v => exact absurd rfl (hc v)
  | _ => exact h

theorem act_status {node : Text} {r : Result Status} (h : Act x p s (.status node v) r s') :
    s'.holder = s.holder := by
  dsimp only [Act] at h
  split at h
  · exact h.2 ▸ rfl
  · exact h.2 ▸ rfl
  · exact h ▸ rfl

theorem holds_relied (h : Holds p v s) (hR : Relied p s s') : Holds p v s' := hR.held v h

theorem Saw.relied (h : Saw p v s) (hR : Relied p s s') : Saw p v s' :=
  ⟨holds_relied h.holds hR, by rw [hR.seen]; exact h.seen⟩

theorem holds_taken : Holds p v (s.take p v) := Function.update_self ..

/-- **A verb's session (proved)**: what it does after it has seen the guest running. -/
theorem sessions (x : External) (p : Caller) (node : Text) (v : ℕ) :
    Sessions (world x p) (Obliged p) node v (Holds p v) (Saw p v) where
  locked := by
    rintro s s' ⟨-, s₁, ⟨-, -, rfl⟩ | ⟨hfail, -⟩, hR, -⟩
    · exact holds_relied holds_taken hR
    · exact absurd rfl (hfail ())
  looked := by
    rintro s r s' hs ⟨-, s₁, ha, hR, -⟩
    exact holds_relied ((congrFun (act_status (x := x) ha) v).trans hs) hR
  seen := by
    rintro s s' hs ⟨-, s₁, ⟨-, rfl⟩, hR, -⟩
    refine Saw.relied (s := s.see p v) ⟨hs, ?_⟩ hR
    show Function.update s.seen p _ p v = true
    rw [Function.update_self, Function.update_self]
  keeps := by
    rintro s c r s' hc hs ⟨-, s₁, ha, hR, -⟩
    obtain ⟨hholder, hseen⟩ := act_at hc ha
    exact Saw.relied ⟨by rw [Holds, hholder]; exact hs.holds, by rw [hseen]; exact hs.seen⟩ hR
  held hs := hs.holds
  lock _ := obliged_of_noCalls nofun rfl
  status _ := obliged_of_noCalls nofun rfl
  within hc hs := obliged_of_saw hc hs
  unlock hs := obliged_unlock hs

/-! ### The loop's session -/

variable {ctx : Ctx} {read : Read}

/-- The loop holds the lock of the guest whose document it read. -/
structure AtWork (ctx : Ctx) (v : ℕ) (read : Read) (s : Watch) : Prop where
  holds : Holds (.loop ctx) v s
  reading : s.reading (.loop ctx) = some read

theorem AtWork.relied (h : AtWork ctx v read s) (hR : Relied (.loop ctx) s s') :
    AtWork ctx v read s' :=
  ⟨holds_relied h.holds hR, hR.reading.trans h.reading⟩

/-- **An attempt that is barred (proved)**: it has read the config when it ends. -/
theorem wp_attempt_barred (hvmid : read.vmid = v) (hread : s.reading (.loop ctx) = some read) :
    wp (world x (.loop ctx)) (Obliged (.loop ctx)) (attempt x ctx v read).run (fun _ _ => True) s := by
  rw [← ends_eta fun _ _ => True, PveCompose.attempt, withLock, wp_bind, wp_issue]
  refine ⟨obliged_of_noCalls (fun v hv => by cases hv) rfl, fun r s₂ hr => ?_⟩
  obtain ⟨-, s₁, ha, hR, -⟩ := hr
  cases r with
  | error e => trivial
  | ok u =>
    have hs₂ : AtWork ctx v read s₂ := by
      rcases ha with ⟨-, -, rfl⟩ | ⟨hfail, -⟩
      · exact AtWork.relied (s := s.take (.loop ctx) v) ⟨holds_taken, hread⟩ hR
      · exact absurd rfl (hfail u)
    show wp _ _ (Fallible.run _) _ _
    rw [wp_bind, wp_attempt]
    have hbody : wp (world x (.loop ctx)) (Obliged (.loop ctx)) (do
        let g ← loadWith ctx read
        let g ← pctHalf ctx g
        dockerHalf x ctx g : M Unit).run
        (Ends (fun _ => Holds (.loop ctx) v) fun _ => Holds (.loop ctx) v) s₂ := by
      rw [wp_bind, loadWith, readConfig, hvmid, wp_bind, wp_bind, wp_issue]
      refine ⟨obliged_of_noCalls (fun v hv => by cases hv) rfl, fun r s₃ hr => ?_⟩
      obtain ⟨hbars, s₁, ha, hR, -⟩ := hr
      have hs₃ : Holds (.loop ctx) v s₃ := by
        rw [show s₁ = s₂ from ha] at hR
        exact (hs₂.relied hR).holds
      cases r with
      | error e => exact hs₃
      | ok found =>
        cases found with
        | none => exact hs₃
        | some conf =>
          show wp _ _ (Fallible.run _) _ _
          rw [wp_ofExcept]
          cases hparse : parseConfig v conf with
          | error e => exact hs₃
          | ok config =>
            rw [ends_ok, wp_bind, wp_ofExcept]
            cases hvolumes : volumes read.doc.spec ctx.limits with
            | error e => exact hs₃
            | ok vs =>
              obtain ⟨hauto, e, hplan⟩ := hbars conf ⟨config, read, vs⟩ rfl hparse hs₂.reading hvolumes
              rw [withContext, ends_ok, wp_pure, wp_bind, pctHalf, if_pos hauto, wp_bind, pctApplyGuest, wp_bind,
                hplan, wp_ofExcept]
              exact hs₃
    refine wp_mono hbody fun r s₃ hs₃ => ?_
    have hheld : Holds (.loop ctx) v s₃ := by
      cases r with
      | ok u => exact hs₃
      | error e => exact hs₃
    rw [wp_bind, wp_issue]
    exact ⟨obliged_unlock hheld, fun _ _ _ => by cases r <;> trivial⟩

/-! ### The condition is exact -/

/-- Something was called. -/
def Touched (l : List (Event sig)) : Prop := ∃ e ∈ l, e.1.pctCalls ≠ []

section Touched

variable {l : List (Event sig)} {g : Guest}

theorem stays_touched {α : Type} {p : Prog sig α} (h : Touched l) :
    wp World.log (fun _ _ => True) p (fun _ => Touched) l := by
  refine wp_only only_true ?_ (fun _ _ _ _ => trivial) h
  rintro l c r _ - ⟨e, he, hcalls⟩ rfl
  exact ⟨e, List.mem_append_left _ he, hcalls⟩

/-- A command that calls something, and whatever comes after it. -/
theorem wp_call_touched {α : Type} {c : Cmd} {k : sig.Ans c → Prog sig α} (hc : c.pctCalls ≠ []) :
    wp World.log (fun _ _ => True) (.call c k) (fun _ => Touched) l := by
  refine ⟨trivial, ?_⟩
  rintro r _ rfl
  exact stays_touched ⟨⟨c, r⟩, List.mem_append_right _ (List.mem_singleton_self _), hc⟩

theorem pctCalls_pct {op : Op} {call : Call} : (Cmd.pct v op call).pctCalls ≠ [] := by
  cases call <;> exact List.cons_ne_nil _ _

/-- A plan with an operation calls something. -/
theorem wp_executePlan_touched {p : Plan} (hops : execute g.config p ≠ []) :
    wp World.log (fun _ _ => True) (executePlan g.config p).run (fun _ => Touched) l := by
  obtain ⟨⟨op, call⟩, rest, hexec⟩ := List.exists_cons_of_ne_nil hops
  rw [executePlan, hexec]
  refine ⟨trivial, ?_⟩
  rintro r _ rfl
  exact wp_call_touched pctCalls_pct

/-- Notes are said, and never fail. -/
theorem wp_notes {α : Type} {f : Unit → M α} {Q : Result α → List (Event sig) → Prop} {ns : List Text}
    (hf : ∀ l, wp World.log (fun _ _ => True) (f ()).run Q l) :
    wp World.log (fun _ _ => True) (Fallible.forEach (fun n => report ("note: " ++ n)) ns >>= f).run
      Q l := by
  induction ns generalizing l with
  | nil => exact hf l
  | cons n ns ih =>
    refine ⟨trivial, ?_⟩
    rintro r _ rfl
    exact ih

/-- A pct half whose plan can be made calls something, unless there is nothing to do. -/
theorem wp_pctApplyGuest_touched {p : Plan} (hp : pctPlan ctx g = .ok p) :
    wp World.log (fun _ _ => True) (pctApplyGuest ctx g).run
      (Ends (fun n l => n = 0 ∨ Touched l) fun _ => Touched) l := by
  rw [pctApplyGuest, wp_bind, hp, wp_ofExcept, ends_ok]
  refine wp_notes fun l => ?_
  split_ifs with hops
  · refine ⟨trivial, ?_⟩
    rintro r _ rfl
    exact .inl rfl
  · rw [wp_bind, report, wp_issue]
    refine ⟨trivial, ?_⟩
    rintro r _ rfl
    rw [ends_ok, wp_bind, wp_attempt]
    have hcalls : execute g.config p ≠ [] := by
      obtain ⟨op, ops, hcons⟩ := List.exists_cons_of_ne_nil hops
      rw [execute, hcons]
      exact List.cons_ne_nil _ _
    refine wp_mono (wp_executePlan_touched hcalls) fun r l hl => ?_
    refine wp_mono (stays_touched hl) fun r l hl => ?_
    cases r with
    | ok n => exact .inr hl
    | error e => exact hl

/-- The halves of a guest whose plan can be made. -/
theorem wp_halves_touched (hplan : g.read.doc.policy.pct = .auto → ∃ p, pctPlan ctx g = .ok p) :
    wp World.log (fun _ _ => True) (do
      let g ← pctHalf ctx g
      dockerHalf x ctx g : M Unit).run (fun _ => Touched) l := by
  have hdocker : ∀ (g : Guest) l, wp World.log (fun _ _ => True) (dockerHalf x ctx g).run
      (fun _ => Touched) l := fun g l => wp_call_touched (List.cons_ne_nil _ _)
  rw [pctHalf]
  split_ifs with hauto
  · obtain ⟨p, hp⟩ := hplan hauto
    rw [← ends_eta fun _ => Touched, wp_bind, wp_bind]
    refine wp_ends_mono (wp_pctApplyGuest_touched hp) ?_ fun _ _ hl => hl
    rintro n l (rfl | hl)
    · exact (ends_eta (fun _ => Touched)).symm ▸ hdocker g l
    · refine wp_mono (stays_touched hl) fun r l hl => ?_
      cases r with
      | ok g' => exact (ends_eta (fun _ => Touched)).symm ▸ stays_touched hl
      | error e => exact hl
  · exact hdocker g l

/-- What a session that has read the config has called, set against the condition. -/
def Settled (ctx : Ctx) (v : ℕ) (read : Read) (l : List (Event sig)) : Prop :=
  ∃ answer tr, l = ⟨.lock v 60, .ok ()⟩ :: ⟨.config ctx.node v, answer⟩ :: tr ∧
    (Touched tr ↔ ¬ Barred ctx v (some read) answer)

theorem settled_barred {answer : Result (Option PveConfig)}
    (h : Barred ctx v (some read) answer) :
    Settled ctx v read [⟨.lock v 60, .ok ()⟩, ⟨.config ctx.node v, answer⟩] :=
  ⟨answer, [], rfl, iff_of_false (fun ⟨_, he, _⟩ => absurd he List.not_mem_nil) (not_not.mpr h)⟩

theorem Settled.unlocked (h : Settled ctx v read l) :
    Settled ctx v read (l ++ [⟨.unlock v, ()⟩]) := by
  obtain ⟨answer, tr, rfl, hiff⟩ := h
  refine ⟨answer, tr ++ [⟨.unlock v, ()⟩], rfl, Iff.trans ⟨?_, ?_⟩ hiff⟩
  · rintro ⟨e, he, hcalls⟩
    rcases List.mem_append.mp he with he | he
    · exact ⟨e, he, hcalls⟩
    · rw [List.mem_singleton.mp he] at hcalls
      exact absurd rfl hcalls
  · rintro ⟨e, he, hcalls⟩
    exact ⟨e, List.mem_append_left _ he, hcalls⟩

/-- A guest whose config, document and volumes are those read is that guest. -/
theorem guest_of_read {conf conf' : PveConfig} {config : GuestConfig} {vs : List Volume} {g : Guest}
    (hparse : parseConfig v conf = .ok config) (hvolumes : volumes read.doc.spec ctx.limits = .ok vs)
    (h : (.ok (some conf) : Result (Option PveConfig)) = .ok (some conf'))
    (hparse' : parseConfig v conf' = .ok g.config) (hread : some read = some g.read)
    (hvolumes' : volumes g.read.doc.spec ctx.limits = .ok g.volumes) : g = ⟨config, read, vs⟩ := by
  obtain ⟨config', read', vs'⟩ := g
  cases h
  cases hread
  rw [hparse] at hparse'
  rw [hvolumes] at hvolumes'
  cases hparse'
  cases hvolumes'
  rfl

/-- **The two halves of an attempt (proved)**: they call something unless the pct half cannot plan. -/
theorem wp_halves_settled {conf : PveConfig} {config : GuestConfig} {vs : List Volume}
    (hparse : parseConfig v conf = .ok config) (hvolumes : volumes read.doc.spec ctx.limits = .ok vs) :
    wp World.log (fun _ _ => True) (do
      let g ← pctHalf ctx ⟨config, read, vs⟩
      dockerHalf x ctx g : M Unit).run (fun _ => Settled ctx v read)
      [⟨.lock v 60, .ok ()⟩, ⟨.config ctx.node v, .ok (some conf)⟩] := by
  by_cases hplan : read.doc.policy.pct = .auto → ∃ p, pctPlan ctx ⟨config, read, vs⟩ = .ok p
  · have hgrows := wp_log_only (S := sig) (I := fun _ _ => True)
      (l := [⟨.lock v 60, .ok ()⟩, ⟨.config ctx.node v, .ok (some conf)⟩]) (only_true (p := (do
        let g ← pctHalf ctx ⟨config, read, vs⟩
        dockerHalf x ctx g : M Unit).run)) fun _ _ _ _ => trivial
    refine wp_mono (wp_and hgrows (wp_halves_touched hplan)) ?_
    rintro r _ ⟨⟨tr, rfl, -⟩, e, he, hcalls⟩
    refine ⟨_, tr, rfl, iff_of_true ⟨e, ?_, hcalls⟩ fun hbarred => ?_⟩
    · simp only [List.cons_append, List.nil_append, List.mem_cons] at he
      rcases he with rfl | rfl | he
      · exact absurd rfl hcalls
      · exact absurd rfl hcalls
      · exact he
    · obtain ⟨hauto, e, herror⟩ := hbarred conf ⟨config, read, vs⟩ rfl hparse rfl hvolumes
      obtain ⟨p, hp⟩ := hplan hauto
      rw [herror] at hp
      cases hp
  · obtain ⟨hauto, hnone⟩ := Classical.not_imp.mp hplan
    obtain ⟨e, herror⟩ : ∃ e, pctPlan ctx ⟨config, read, vs⟩ = .error e := by
      cases hp : pctPlan ctx ⟨config, read, vs⟩ with
      | ok p => exact absurd ⟨p, hp⟩ hnone
      | error e => exact ⟨e, rfl⟩
    rw [← ends_eta fun _ => Settled ctx v read, wp_bind, pctHalf, if_pos hauto, wp_bind, pctApplyGuest,
      wp_bind, herror, wp_ofExcept]
    refine settled_barred fun conf' g h hparse' hread hvolumes' => ?_
    obtain rfl := guest_of_read hparse hvolumes h hparse' hread hvolumes'
    exact ⟨hauto, e, herror⟩

theorem wp_body_settled (hvmid : read.vmid = v) :
    wp World.log (fun _ _ => True) (do
      let g ← loadWith ctx read
      let g ← pctHalf ctx g
      dockerHalf x ctx g : M Unit).run (fun _ => Settled ctx v read) [⟨.lock v 60, .ok ()⟩] := by
  rw [← ends_eta fun _ => Settled ctx v read, wp_bind, loadWith, readConfig, hvmid, wp_bind, wp_bind,
    wp_issue]
  refine ⟨trivial, ?_⟩
  rintro r _ rfl
  cases r with
  | error e => exact settled_barred fun conf g h => by cases h
  | ok found =>
    cases found with
    | none => exact settled_barred fun conf g h => by cases h
    | some conf =>
      show wp _ _ (Fallible.run _) _ _
      rw [wp_ofExcept]
      cases hparse : parseConfig v conf with
      | error e =>
        refine settled_barred fun conf' g h hparse' => ?_
        cases h
        rw [hparse] at hparse'
        cases hparse'
      | ok config =>
        rw [ends_ok, wp_bind, wp_ofExcept]
        cases hvolumes : volumes read.doc.spec ctx.limits with
        | error e =>
          refine settled_barred fun conf' g h _ hread hvolumes' => ?_
          cases hread
          rw [hvolumes] at hvolumes'
          cases hvolumes'
        | ok vs =>
          rw [withContext, ends_ok, wp_pure, ends_eta fun _ => Settled ctx v read]
          exact wp_halves_settled hparse hvolumes

/-- **The condition is exact (proved)**: an attempt that has the lock calls something of the guest,
which it has not looked at, unless it is barred. -/
theorem attempt_touches_iff {tr : List (Event sig)} {answer : Result (Option PveConfig)}
    {result : Result Unit} (hvmid : read.vmid = v)
    (h : Yields (attempt x ctx v read).run
      (⟨.lock v 60, .ok ()⟩ :: ⟨.config ctx.node v, answer⟩ :: tr) result) :
    Touched tr ↔ ¬ Barred ctx v (some read) answer := by
  have hattempt : wp World.log (fun _ _ => True) (attempt x ctx v read).run
      (fun _ l => (∃ e : Error, l = [⟨.lock v 60, .error e⟩]) ∨ Settled ctx v read l) [] := by
    rw [← ends_eta fun _ l => (∃ e : Error, l = [⟨.lock v 60, .error e⟩]) ∨ Settled ctx v read l,
      PveCompose.attempt, withLock, wp_bind, wp_issue]
    refine ⟨trivial, ?_⟩
    rintro r _ rfl
    cases r with
    | error e => exact .inl ⟨e, rfl⟩
    | ok u =>
      show wp _ _ (Fallible.run _) _ _
      rw [wp_bind, wp_attempt]
      refine wp_mono (wp_body_settled hvmid) fun r l hl => ?_
      rw [wp_bind, wp_issue]
      refine ⟨trivial, ?_⟩
      rintro u _ rfl
      have hunlocked := hl.unlocked
      cases r with
      | ok u => exact .inr hunlocked
      | error e => exact .inr hunlocked
  rcases (wp_log_yields hattempt h).1 with ⟨e, he⟩ | ⟨answer', tr', htr, hiff⟩
  · obtain ⟨hlock, -⟩ := List.cons.inj he
    cases hlock
  · obtain ⟨-, htr⟩ := List.cons.inj htr
    obtain ⟨hconfig, rfl⟩ := List.cons.inj htr
    cases hconfig
    exact hiff

end Touched

/-! ### Every interleaving -/

theorem discipline : Discipline (threads x) Bars Relied (fun _ => True) Obliged where
  refl := relied_refl
  trans _ _ _ _ h h' := h.trans h'
  inv _ _ _ _ _ _ _ _ _ := trivial
  others _ _ _ _ _ _ hq _ _ hI ha := relied_of_acted hq (acted_of_act ha hI)
  env := by
    rintro s _ - ⟨v, on, rfl⟩
    exact ⟨trivial, fun _ => ⟨rfl, rfl, fun _ h => h⟩⟩
  starts := by
    intro p prog s hstart _
    cases hstart with
    | verb n ctx v verb => exact wp_void ((sessions x (.hand n) ctx.node v).wp_verb verb)
    | pass ctx memo =>
      refine wp_void (wp_pass ?_ (fun _ _ => obliged_of_noCalls nofun rfl) ?_)
      · intro s c hc
        cases c with
        | unlock _ => exact hc.elim
        | _ => first | exact hc.elim | exact obliged_of_noCalls nofun rfl
      · rintro v out read s s' ⟨-, s₁, ha, hR, -⟩ hout
        obtain rfl : s₁ = s.reads (.loop ctx) (document x v (.ok out)) := ha
        refine wp_attempt_barred (decoded_of_readOutput hout).vmid (hR.reading.trans ?_)
        have hdocument : document x v (.ok out) = some read := by
          show (match readOutput x v out with | .ok found => found | .error _ => none) = some read
          rw [hout]
        rw [hdocument]
        exact Function.update_self ..

end Watch

/-- **A guest is called only after it was seen running (proved)**: under the lock, by whoever calls
it, whenever it is started or stopped. -/
theorem touched_running {x : External} {s : Watch} {w : Crew sig Watch Caller} {p : Caller} {c : Cmd}
    {k : c.Answer → Prog sig Unit} (h : Steps (Watch.threads x) Watch.Bars (.idle s) w)
    (hp : w.progs p = .call c k) : Watch.Observed p w.state c := by
  have hw := Watch.discipline.steps (orderly_idle trivial) h
  have hnext := hw.progs p w.state (Watch.relied_refl p _) trivial
  rw [hp] at hnext
  exact hnext.1.observed

/-! ### A guest that is stopped meanwhile -/

/-- A guest without the features docker needs. -/
def nakedConf : PveConfig where
  fields := [("hostname", .string "web"), ("unprivileged", .other "1")]
  distinct := by
    show (["hostname".toList, "unprivileged".toList] : List Text).Nodup
    decide
  small := by
    show 2 ≤ MAX_OUTPUT
    decide

/-- A node with one guest, on which everything succeeds but a lock that is held. -/
def watchAnswer (p : Caller) (s : Watch) : (c : Cmd) → c.Answer × Watch
  | .version => (.ok none, s)
  | .loadConfig => (.notFound, s)
  | .now => (0, s)
  | .wallClock => ("2026-01-01T00:00:00+00:00".toList, s)
  | .sleep _ | .notify _ | .report _ => ((), s)
  | .list _ => (.ok [⟨105, s.running 105, [], false⟩], s)
  | .metaGet v =>
    (.ok (storeOutput (some (webText "nginx"))),
      s.reads p (Watch.document webExternal v (.ok (storeOutput (some (webText "nginx"))))))
  | .lock v _ => if s.holder v = none then (.ok (), s.take p v) else (bail "busy", s)
  | .unlock v => ((), s.release v)
  | .status _ v => if s.running v then (.ok .running, s.see p v) else (.ok .stopped, s)
  | .config _ _ => (.ok (some nakedConf), s)
  | .dockerInfo _ => (.ok 0, s)
  | .exec _ _ => (.ok ⟨0, [], []⟩, s)
  | .ps _ => (.ok [], s)
  | .readCompose _ => (.ok none, s)
  | .readFacts _ => (.ok none, s)
  | .pct _ _ _ | .dockerInstall _ | .writeCompose _ _ | .pull _ | .up _ | .writeFacts _ _ => (.ok (), s)

theorem watchAnswer_act (p : Caller) (s : Watch) (c : Cmd) :
    Watch.Act webExternal p s c (watchAnswer p s c).1 (watchAnswer p s c).2 := by
  cases c with
  | lock v w =>
    dsimp only [watchAnswer]
    split_ifs with hnone
    · exact .inl ⟨rfl, hnone, rfl⟩
    · exact .inr ⟨fun _ => bail_ne_ok, rfl⟩
  | status node v =>
    dsimp only [watchAnswer]
    split_ifs with hrunning
    · exact ⟨hrunning, rfl⟩
    · exact ⟨Bool.not_eq_true _ ▸ hrunning, rfl⟩
  | list node =>
    refine ⟨rfl, ?_⟩
    rintro _ ⟨⟩ l hl
    rw [List.mem_singleton.mp hl]
  | _ => rfl

def watchFresh : Watch where
  running v := v = 105
  holder _ := none
  seen _ _ := false
  reading _ := none

def watchLoop (x : External) : Move sig Watch Caller := .start (.loop webCtx) (pass x webCtx []).void

def watchHand (x : External) : Move sig Watch Caller :=
  .start (.hand 0) (Verb.run x webCtx 105 (.dockerApply ⟨false, false, false⟩)).run.void

def watchStop : Move sig Watch Caller := .env fun s => some (s.turn 105 false)

theorem watchMoves_legal {x : External} {moves : List (Move sig Watch Caller)}
    (h : ∀ m ∈ moves, m = watchLoop x ∨ m = watchHand x ∨ m = watchStop ∨ ∃ p n, m = .turn p n) :
    ∀ m ∈ moves, m.Legal (Watch.threads x) := by
  intro m hm
  rcases h m hm with rfl | rfl | rfl | ⟨p, n, rfl⟩
  · exact Watch.Starts.pass _ _
  · exact Watch.Starts.verb _ _ _ _
  · rintro s _ ⟨⟩
    exact ⟨105, false, rfl⟩
  · trivial

/-- What a program calls next. -/
def nextCalls : Prog sig Unit → List (ℕ × Text)
  | .ret _ => []
  | .call c _ => c.pctCalls

theorem exists_of_nextCalls {p : Prog sig Unit} {call : ℕ × Text} {rest : List (ℕ × Text)}
    (h : nextCalls p = call :: rest) : ∃ c k, p = .call c k ∧ c.pctCalls = call :: rest := by
  cases p with
  | ret _ => cases h
  | call c k => exact ⟨c, k, rfl, h⟩

/-- The guest is stopped between the list and the lock. -/
def watchStopped : Crew sig Watch Caller :=
  play watchAnswer (fun _ _ _ _ => true) (.idle watchFresh)
    [watchLoop webExternal, .turn (.loop webCtx) 2, watchStop, .turn (.loop webCtx) 4]

/-- **The loop does not look again.**  The guest ran when it was listed, and is stopped before the loop
takes its lock; the next command of the loop is a `pct set` on it. -/
theorem touched_stopped :
    Steps (Watch.threads webExternal) (fun _ _ _ _ => True) (.idle watchFresh) watchStopped ∧
      watchStopped.state.running 105 = false ∧
      ∃ c k, watchStopped.progs (.loop webCtx) = .call c k ∧ c.pctCalls = [(105, "set".toList)] ∧
        ¬ Watch.Observed (.loop webCtx) watchStopped.state c := by
  obtain ⟨hstopped, hnext, hseen⟩ : watchStopped.state.running 105 = false ∧
      nextCalls (watchStopped.progs (.loop webCtx)) = [(105, "set".toList)] ∧
      watchStopped.state.seen (.loop webCtx) 105 = false := by decide +kernel
  obtain ⟨c, k, hprog, hcalls⟩ := exists_of_nextCalls hnext
  refine ⟨steps_play watchAnswer_act (fun _ _ _ _ _ => trivial) (watchMoves_legal (by simp)) _,
    hstopped, c, k, hprog, hcalls, fun h => ?_⟩
  have hobserved := (h (105, "set".toList) (by rw [hcalls]; exact List.mem_singleton_self _)).2
  rw [hseen] at hobserved
  cases hobserved

/-- A volume that no storage is named for. -/
def looseText : Text :=
  "spec:\n  services:\n    web:\n      image: nginx\n  volumes:\n    data:\n      x-pve:\n"
    ++ "        size: 1G\n"

def looseDoc : Doc where
  stack := ⟨none⟩
  policy := .default
  spec := .mapping
    [(.string "services", .mapping [(.string "web", .mapping [(.string "image", .string "nginx")])]),
      (.string "volumes", .mapping [(.string "data", .mapping [(.string "x-pve",
        .mapping [(.string "size", .string "1G")])])])]

def looseExternal : External :=
  .on [(looseText, "d0114a310f594667e10edbce3ba649ecf2318550d84e11ff8f9e75e702530689", looseDoc)] []

/-- The node, with that document. -/
def looseAnswer (p : Caller) (s : Watch) : (c : Cmd) → c.Answer × Watch
  | .metaGet v =>
    (.ok (storeOutput (some looseText)),
      s.reads p (Watch.document looseExternal v (.ok (storeOutput (some looseText)))))
  | c => watchAnswer p s c

theorem looseAnswer_act (p : Caller) (s : Watch) (c : Cmd) :
    Watch.Act looseExternal p s c (looseAnswer p s c).1 (looseAnswer p s c).2 := by
  have hact := watchAnswer_act p s c
  cases c with
  | metaGet v => rfl
  | _ => exact Watch.act_congr (fun v hv => by cases hv) hact

/-- The loop finds configs that bar its attempts, as far as can be computed. -/
def looseBars : Caller → Watch → (c : Cmd) → c.Answer → Bool
  | .loop ctx, s, .config _ v, .ok (some conf) =>
    match parseConfig v conf, s.reading (.loop ctx) with
    | .ok config, some read =>
      match volumes read.doc.spec ctx.limits with
      | .ok vs => read.doc.policy.pct = .auto && !(pctPlan ctx ⟨config, read, vs⟩).isOk
      | .error _ => true
    | _, _ => true
  | _, _, _, _ => true

theorem looseBars_bars (p : Caller) (s : Watch) (c : Cmd) (r : c.Answer)
    (h : looseBars p s c r = true) : Watch.Bars p s c r := by
  cases p with
  | hand n => trivial
  | loop ctx =>
    cases c with
    | config node v =>
      rintro conf ⟨config, read, vs⟩ rfl hparse hread hvolumes
      simp only [looseBars, hparse, hread, hvolumes, Bool.and_eq_true, decide_eq_true_eq] at h
      refine ⟨h.1, ?_⟩
      cases hplan : pctPlan ctx ⟨config, read, vs⟩ with
      | ok p =>
        rw [hplan] at h
        cases h.2
      | error e => exact ⟨e, rfl⟩
    | _ => trivial

/-- What a program says next. -/
def nextSaid : Prog sig Unit → Option Text
  | .call (.report msg) _ => some msg
  | _ => none

theorem exists_of_nextSaid {p : Prog sig Unit} {msg : Text} (h : nextSaid p = some msg) :
    ∃ k, p = .call (.report msg) k := by
  cases p with
  | ret _ => cases h
  | call c k =>
    cases c with
    | report t =>
      obtain rfl : t = msg := Option.some.inj h
      exact ⟨k, rfl⟩
    | _ => cases h

/-- Why the loop's attempt is barred. -/
def looseSaid : Text :=
  "105: volume data: no storage: name one in x-pve, or set this node's default with "
    ++ "`pve-compose config set storage <storage>`"

/-- The loop has read the config of the guest and given up the lock; then a verb has looked, and has read
what it needs, when the guest is stopped. -/
def watchRunning : Crew sig Watch Caller :=
  play looseAnswer looseBars (.idle watchFresh)
    [watchLoop looseExternal, .turn (.loop webCtx) 5, watchHand looseExternal, .turn (.hand 0) 5, watchStop]

theorem watchRunning_said : nextSaid (watchRunning.progs (.loop webCtx)) = some looseSaid := by
  decide +kernel

theorem watchRunning_calls : nextCalls (watchRunning.progs (.hand 0)) = [(105, "exec".toList)] := by
  decide +kernel

/-- The loop says why its attempt is barred, and the verb goes on in the guest it has seen running. -/
theorem touched_running_web :
    (∃ k, watchRunning.progs (.loop webCtx) = .call (.report looseSaid) k) ∧
    ∃ c k, watchRunning.progs (.hand 0) = .call c k ∧ c.pctCalls = [(105, "exec".toList)] ∧
      Watch.Observed (.hand 0) watchRunning.state c := by
  obtain ⟨c, k, hprog, hcalls⟩ := exists_of_nextCalls watchRunning_calls
  have hsteps : Steps (Watch.threads looseExternal) Watch.Bars (.idle watchFresh) watchRunning :=
    steps_play looseAnswer_act looseBars_bars (watchMoves_legal (by simp)) _
  exact ⟨exists_of_nextSaid watchRunning_said, c, k, hprog, hcalls, touched_running hsteps hprog⟩

end PveCompose
