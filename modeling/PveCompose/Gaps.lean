import PveCompose.Rounds
import PveCompose.Waits
import PveCompose.Lib.Budget

/-!
# Between two pings of the watchdog (`ops/daemon.rs`, `cmd.rs`)

Every command the loop runs has a deadline; the unit's watchdog bites when no ping comes in time.

* `Cmd.deadline` — how long each command may take, as it is called;
* `costs_attempt` — **PROVED**: what one attempt may take, beside the operations of its plan;
* `gap_bounded` — **PROVED**: however long the loop runs and whatever fails, the deadlines between two
  pings come to one attempt or one sleep and two polls, one deadline for each document that was read and
  a long one for each operation.
-/

namespace PveCompose

open Programs

def LONG_TIMEOUT : ℕ := 30 * 60

/-! ### Deadlines -/

/-- The deadline of a command as the loop calls it, in seconds: of all its calls where it is made of
several, and none for what runs no other program. -/
def Cmd.deadline : Cmd → ℕ
  | .version | .list _ | .metaGet _ | .status _ _ | .config _ _ | .dockerInfo _ | .exec _ _ | .ps _
  | .readCompose _ | .readFacts _ => TIMEOUT
  -- a directory is made, a sibling pushed, and the sibling renamed or removed
  | .writeCompose _ _ | .writeFacts _ _ => 3 * TIMEOUT
  | .pct _ _ _ | .dockerInstall _ | .pull _ | .up _ => LONG_TIMEOUT
  | .lock _ secs | .sleep secs => secs
  | .loadConfig | .now | .wallClock | .notify _ | .report _ | .unlock _ => 0

/-- An operation of a plan. -/
def Cmd.isOperation : Cmd → Bool
  | .pct _ _ _ => true
  | _ => false

/-- The deadline of a command that is neither a read of a document nor an operation. -/
def Cmd.overhead (c : Cmd) : ℕ := if c.isRead ∨ c.isOperation then 0 else c.deadline

/-- A stretch takes its overhead, and what its reads and its operations take. -/
theorem spent_deadline (tr : List (Event sig)) : spent Cmd.deadline tr = spent Cmd.overhead tr
    + TIMEOUT * tr.countP (fun e => e.1.isRead) + LONG_TIMEOUT * tr.countP (fun e => e.1.isOperation) := by
  induction tr with
  | nil => rfl
  | cons e tr ih =>
    have hhead : Cmd.deadline e.1 = Cmd.overhead e.1 + (if e.1.isRead then TIMEOUT else 0)
        + if e.1.isOperation then LONG_TIMEOUT else 0 := by
      obtain ⟨c, r⟩ := e
      cases c <;> rfl
    rw [spent_cons, spent_cons, List.countP_cons, List.countP_cons, ih, hhead]
    split_ifs <;> ring

/-! ### One attempt -/

/-- What an attempt may take, beside the operations of its plan: the lock, the config twice, the facts, and
the docker half with its three long commands. -/
def attemptOverhead : ℕ := 60 + 14 * TIMEOUT + 3 * LONG_TIMEOUT

section

variable {x : External} {ctx : Ctx} {g : Guest} {o : Options} {vmid : ℕ} {read : Read} {n : ℕ}

theorem costs_report (msg : Text) : Costs Cmd.overhead (report msg).run n :=
  costs_issue (Nat.zero_le _) _

theorem costs_readConfig {node : Text} : Costs Cmd.overhead (readConfig node vmid).run TIMEOUT := by
  refine costs_bind (costs_issue le_rfl _) le_rfl fun v => ?_
  cases v with
  | none => exact costs_ofExcept _
  | some conf => exact costs_ofExcept _

theorem costs_exec (script : Text) : Costs Cmd.overhead (exec vmid script).run TIMEOUT := by
  refine costs_bind (costs_issue le_rfl _) le_rfl fun out => ?_
  split_ifs
  · exact costs_ofExcept _
  · exact costs_pure _

theorem costs_loadWith : Costs Cmd.overhead (loadWith ctx read).run TIMEOUT :=
  costs_bind costs_readConfig le_rfl fun _ =>
    costs_bind (costs_ofExcept _) (Nat.zero_le _) fun _ => costs_pure _

theorem costs_pctHalf : Costs Cmd.overhead (pctHalf ctx g).run TIMEOUT := by
  have happly : Costs Cmd.overhead (pctApplyGuest ctx g).run 0 :=
    costs_only (only_pctApplyGuest_of (fun _ => rfl) fun _ _ _ _ => rfl)
  unfold pctHalf
  split_ifs
  · refine costs_bind happly (Nat.zero_le _) fun k => ?_
    split_ifs
    · refine costs_bind (costs_report _) (Nat.zero_le _) fun _ => ?_
      exact costs_bind costs_readConfig le_rfl fun _ => costs_pure _
    · exact costs_pure _
  · exact costs_pure _

theorem costs_ensureDocker : Costs Cmd.overhead (ensureDocker vmid).run (TIMEOUT + LONG_TIMEOUT) := by
  refine costs_bind (m := TIMEOUT) (costs_issue le_rfl _) (by decide) fun status => ?_
  split_ifs
  · exact costs_pure _
  · refine costs_bind (m := LONG_TIMEOUT) (costs_attempt (costs_issue le_rfl _)) (by decide)
      fun installed => ?_
    cases installed with
    | ok u => exact costs_pure _
    | error e => exact costs_ofExcept _

theorem costs_wantsStart {current : Option Text} :
    Costs Cmd.overhead (wantsStart g o current).run TIMEOUT := by
  unfold wantsStart
  split_ifs
  · exact costs_pure _
  · exact costs_bind (costs_issue le_rfl _) le_rfl fun _ => costs_pure _
  · exact costs_pure _
  · exact costs_pure _

theorem costs_putCompose {current : Option Text} {text : Text} :
    Costs Cmd.overhead (putCompose g current text).run (3 * TIMEOUT) := by
  unfold putCompose
  split_ifs
  · exact costs_bind (costs_report _) (Nat.zero_le _) fun _ => costs_issue le_rfl _
  · exact costs_pure _

theorem costs_startStack {start : Bool} :
    Costs Cmd.overhead (startStack g o start).run (2 * LONG_TIMEOUT) := by
  have hup : ∀ {k}, LONG_TIMEOUT ≤ k → Costs Cmd.overhead
      (do report "docker: up"; .issue (.up g.vmid) id : M Unit).run k := fun hk =>
    costs_bind (costs_report _) (Nat.zero_le _) fun _ => costs_issue hk _
  unfold startStack
  split_ifs
  · refine costs_bind (costs_report _) (Nat.zero_le _) fun _ => ?_
    exact costs_bind (m := LONG_TIMEOUT) (costs_issue le_rfl _) (by decide) fun _ => hup (by decide)
  · exact hup (by decide)
  · exact costs_report _
  · exact costs_report _

/-- The docker half of an apply. -/
theorem costs_dockerApplyGuest : Costs Cmd.overhead (dockerApplyGuest x ctx g o).run
    (11 * TIMEOUT + 3 * LONG_TIMEOUT) := by
  refine costs_bind costs_ensureDocker (by decide) fun _ => ?_
  refine costs_bind (m := TIMEOUT) ?_ (by decide) fun _ => ?_
  · exact costs_bind (costs_exec _) le_rfl fun _ => costs_pure _
  refine costs_bind (costs_ofExcept _) (Nat.zero_le _) fun text => ?_
  refine costs_bind (m := TIMEOUT) (costs_issue le_rfl _) (by decide) fun current => ?_
  refine costs_bind costs_wantsStart (by decide) fun start => ?_
  refine costs_bind costs_putCompose (by decide) fun _ => ?_
  refine costs_bind costs_startStack (by decide) fun _ => ?_
  refine costs_bind (m := TIMEOUT) (costs_issue le_rfl _) (by decide) fun previous => ?_
  refine costs_bind (m := 0) ?_ (Nat.zero_le _) fun facts => ?_
  · exact costs_bind (costs_issue le_rfl _) le_rfl fun _ => costs_pure _
  · exact costs_bind (m := 3 * TIMEOUT) (costs_issue le_rfl _) (by decide) fun _ => costs_pure _

theorem costs_dockerHalf : Costs Cmd.overhead (dockerHalf x ctx g).run
    (12 * TIMEOUT + 3 * LONG_TIMEOUT) := by
  refine costs_bind (m := TIMEOUT) (costs_issue le_rfl _) (by decide) fun facts => ?_
  dsimp only
  split_ifs
  · exact costs_bind costs_dockerApplyGuest (by decide) fun _ => costs_report _
  · exact costs_pure _

/-- **One attempt (proved).** -/
theorem costs_attemptGuest : Costs Cmd.overhead (attempt x ctx vmid read).run attemptOverhead := by
  refine costs_bind (m := 60) (costs_issue le_rfl _) (by decide) fun _ => ?_
  refine costs_bind (m := 14 * TIMEOUT + 3 * LONG_TIMEOUT) (costs_attempt ?_) (by decide) fun r => ?_
  · refine costs_bind costs_loadWith (by decide) fun g => ?_
    refine costs_bind costs_pctHalf (by decide) fun g => ?_
    exact costs_mono costs_dockerHalf (by decide)
  · exact costs_bind (costs_issue le_rfl _) (Nat.zero_le _) fun _ => costs_ofExcept _

end

/-! ### Between two pings -/

/-- What may be taken between two pings, beside reads and operations. -/
def gapOverhead (interval : ℕ) : ℕ := 2 * TIMEOUT + max attemptOverhead interval

/-- What was spent since the last ping. -/
def gapMeter (interval : ℕ) : Monitor sig ℕ := meter Cmd.overhead Cmd.isPing (gapOverhead interval)

section

variable {x : External} {ctx : Ctx} {memo : Memo} {q interval : ℕ}

theorem gap_mute : Mute (gapMeter interval).world (gapMeter interval).Allows :=
  fun _ _ => ⟨fun _ => rfl, fun _ _ h => (Option.some.inj h).symm⟩

/-- A ping, whatever was spent. -/
theorem wp_ping : wp (gapMeter interval).world (gapMeter interval).Allows watchdog (fun _ q' => q' = 0) q :=
  ⟨fun _ => rfl, fun _ _ h => (Option.some.inj h).symm⟩

theorem wp_visit_gap {g : Listed} (hq : q ≤ 2 * TIMEOUT) :
    wp (gapMeter interval).world (gapMeter interval).Allows (visit x ctx memo g)
      (fun _ q' => q' ≤ 2 * TIMEOUT) q := by
  have hattempt : 2 * TIMEOUT + attemptOverhead ≤ gapOverhead interval :=
    Nat.add_le_add_left (le_max_left _ _) _
  have hread : q + (Cmd.metaGet g.vmid).overhead ≤ gapOverhead interval := by
    show q + 0 ≤ _
    omega
  refine wp_visit_cases gap_mute (fun _ => hq) (fun _ => meter_allows hread) (fun a q₁ _ ha _ => ?_) ?_
  · exact (meter_reply hread ha).trans hq
  · intro out read q₁ _ ha _ _
    have hq₁ : q₁ ≤ 2 * TIMEOUT := (meter_reply hread ha).trans hq
    refine wp_mono (wp_of_costs costs_attemptGuest (by omega)) fun _ q₂ _ => ?_
    exact wp_mono wp_ping fun _ q₃ hq₃ => hq₃ ▸ Nat.zero_le _

theorem wp_pass_gap (hq : q ≤ TIMEOUT) :
    wp (gapMeter interval).world (gapMeter interval).Allows (pass x ctx memo)
      (fun _ q' => q' ≤ 2 * TIMEOUT) q := by
  have hlist : q + (Cmd.list ctx.node).overhead ≤ gapOverhead interval := by
    have htwo : 2 * TIMEOUT ≤ gapOverhead interval := Nat.le_add_right _ _
    show q + TIMEOUT ≤ _
    omega
  refine (wp_seq _ _ _ _).mpr (wp_ask_meter hlist fun a q₁ hq₁ => ?_)
  have hwithin : q₁ ≤ 2 * TIMEOUT := by
    have hcost : (Cmd.list ctx.node).overhead = TIMEOUT := rfl
    omega
  cases a with
  | error e => exact hwithin
  | ok ls =>
    refine (wp_seq _ _ _ _).mpr (wp_visitAll_cases (J := fun _ _ q => q ≤ 2 * TIMEOUT) ?_ hwithin)
    exact fun _ _ _ _ hq => wp_visit_gap hq

variable {l : LoopCtx} {st : LoopState}

/-- The sleep at the end of a turn. -/
theorem wp_rest_gap (hq : q ≤ 2 * TIMEOUT) :
    wp (gapMeter l.interval).world (gapMeter l.interval).Allows (do
      Prog.ask (S := sig) (.sleep l.interval)
      pure st) (fun _ _ => True) q := by
  have hsleep : 2 * TIMEOUT + l.interval ≤ gapOverhead l.interval :=
    Nat.add_le_add_left (le_max_right _ _) _
  refine (wp_seq _ _ _ _).mpr (wp_ask_meter ?_ fun _ _ _ => trivial)
  show q + l.interval ≤ _
  omega

theorem wp_reload_gap {file : FileRead} :
    wp (gapMeter interval).world (gapMeter interval).Allows (reload x st file) (fun _ q' => q' = q) q := by
  unfold reload
  cases Config.load x.configFromYaml file with
  | error e => exact (wp_seq _ _ _ _).mpr (wp_mute gap_mute rfl)
  | ok c =>
    dsimp only
    split_ifs
    · exact (wp_seq _ _ _ _).mpr (wp_mute gap_mute rfl)
    · rfl

theorem wp_passTurn_gap {token : Text} (hq : q ≤ TIMEOUT) :
    wp (gapMeter interval).world (gapMeter interval).Allows (passTurn x l st token)
      (fun _ q' => q' ≤ 2 * TIMEOUT) q := by
  refine (wp_seq _ _ _ _).mpr (wp_mono (wp_pass_gap hq) fun r q₁ hq₁ => ?_)
  obtain ⟨r, memo⟩ := r
  cases r with
  | error e => exact (wp_seq _ _ _ _).mpr (wp_mute gap_mute hq₁)
  | ok u => exact hq₁

/-- **One turn (proved)**: it begins with a ping, and up to each of its pings no more is spent. -/
theorem wp_iteration_gap :
    wp (gapMeter l.interval).world (gapMeter l.interval).Allows (iteration x l st) (fun _ _ => True) q := by
  have hone : TIMEOUT ≤ gapOverhead l.interval := (by decide : TIMEOUT ≤ 2 * TIMEOUT).trans
    (Nat.le_add_right _ _)
  refine (wp_seq _ _ _ _).mpr (wp_mono wp_ping fun _ q₁ hq₁ => ?_)
  subst hq₁
  have hversion : 0 + Cmd.version.overhead = TIMEOUT := rfl
  refine (wp_seq _ _ _ _).mpr (wp_ask_meter (hversion ▸ hone) fun r q₂ hq₂ => ?_)
  have hpolled : q₂ ≤ TIMEOUT := hversion ▸ hq₂
  have htwo : q₂ ≤ 2 * TIMEOUT := by omega
  cases r with
  | error e => exact (wp_seq _ _ _ _).mpr (wp_mute gap_mute (wp_rest_gap htwo))
  | ok answer =>
    -- the clock and the file are read by the process itself
    refine (wp_seq _ _ _ _).mpr (wp_ask_free rfl (hpolled.trans hone) fun now q₃ hq₃ => ?_)
    have hclock : q₃ ≤ TIMEOUT := hq₃.trans hpolled
    refine (wp_seq _ _ _ _).mpr (wp_ask_free rfl (hclock.trans hone) fun file q₄ hq₄ => ?_)
    have hread : q₄ ≤ TIMEOUT := hq₄.trans hclock
    refine (wp_seq _ _ _ _).mpr (wp_mono wp_reload_gap fun st₁ q₅ hq₅ => ?_)
    subst hq₅
    dsimp only
    split_ifs
    · have hfull : wp (gapMeter l.interval).world (gapMeter l.interval).Allows
          (startFull st₁ (fullDue l st now)) (fun _ q' => q' ≤ TIMEOUT) q₅ := by
        unfold startFull
        split_ifs
        · refine (wp_seq _ _ _ _).mpr (wp_ask_free rfl (hread.trans hone) fun t q₆ hq₆ => ?_)
          exact hq₆.trans hread
        · exact hread
      refine (wp_seq _ _ _ _).mpr (wp_mono hfull fun st₂ q₆ hq₆ => ?_)
      exact (wp_seq _ _ _ _).mpr (wp_mono (wp_passTurn_gap hq₆) fun st₃ q₇ hq₇ => wp_rest_gap hq₇)
    · exact (wp_seq _ _ _ _).mpr (wp_rest_gap (by omega))

/-- **Any number of turns (proved).** -/
theorem wp_turns_gap {n : ℕ} :
    wp (gapMeter l.interval).world (gapMeter l.interval).Allows (turns x l n st) (fun _ _ => True) q := by
  induction n generalizing st q with
  | zero => trivial
  | succ n ih => exact (wp_seq _ _ _ _).mpr (wp_mono wp_iteration_gap fun _ _ _ => ih)

theorem wp_startLoop_gap : wp (gapMeter interval).world (gapMeter interval).Allows (startLoop ctx)
    (fun r _ => r.1.interval = max ctx.config.daemon.interval 5) 0 := by
  refine (wp_seq _ _ _ _).mpr (wp_ask_free rfl (Nat.zero_le _) fun t q₁ hq₁ => ?_)
  refine (wp_seq _ _ _ _).mpr (wp_ask_free rfl (hq₁.trans (Nat.zero_le _)) fun _ q₂ hq₂ => ?_)
  have hstill : q₂ ≤ 0 := hq₂.trans hq₁
  exact (wp_seq _ _ _ _).mpr (wp_ask_free rfl (hstill.trans (Nat.zero_le _)) fun _ _ _ => rfl)

/-- **What may lie between two pings (proved)**: in every run of the loop, however long, whatever is
answered and whatever fails, the deadlines of a stretch without a ping come to two polls and one attempt or
one sleep, the deadline of a read for every document that is read, and a long one for every operation. -/
theorem gap_bounded {n : ℕ} {tr part : List (Event sig)} {r : LoopCtx × LoopState}
    (h : Yields (runLoop x ctx n) tr r) (hin : part <:+: tr) (hquiet : ∀ e ∈ part, ¬ e.1.isPing) :
    spent Cmd.deadline part ≤ gapOverhead (max ctx.config.daemon.interval 5)
      + TIMEOUT * part.countP (fun e => e.1.isRead)
      + LONG_TIMEOUT * part.countP (fun e => e.1.isOperation) := by
  have hwp : wp (gapMeter (max ctx.config.daemon.interval 5)).world
      (gapMeter (max ctx.config.daemon.interval 5)).Allows (runLoop x ctx n) (fun _ _ => True) 0 := by
    refine (wp_seq _ _ _ _).mpr (wp_mono wp_startLoop_gap fun r q hr => ?_)
    obtain ⟨l, st⟩ := r
    have hinterval : l.interval = max ctx.config.daemon.interval 5 := hr
    rw [← hinterval]
    exact (wp_seq _ _ _ _).mpr (wp_mono wp_turns_gap fun _ _ _ => trivial)
  obtain ⟨q, hrun, -⟩ := Monitor.accepted hwp h
  obtain ⟨q₁, q₂, hpart⟩ := Monitor.exists_run_of_infix hrun hin
  have hoverhead := spent_le_of_meter hpart fun e he => Bool.eq_false_iff.mpr (hquiet e he)
  rw [spent_deadline]
  omega

end

/-! ### A first deploy -/

/-- Docker is not there yet, and a stack runs whose file is another one. -/
def deployAnswer (polls : ℕ) : (c : Cmd) → c.Answer × ℕ
  | .list _ => (.ok [⟨105, true, [], false⟩], polls)
  | .lock _ _ => (.ok (), polls)
  | .dockerInfo _ => (.ok 1, polls)
  | .readCompose _ => (.ok (some "services: \x7b\x7d\n"), polls)
  | .ps _ => (.ok [⟨"running"⟩], polls)
  | c => busyAnswer polls c

/-- The stretch from the first poll to the ping after the attempt: by its deadlines, the three quarters of
an hour after which the unit's watchdog bites may go by in it. -/
theorem gap_bounded_deploy : ∃ part, part <:+: (runLoop webExternal webCtx 1).trace deployAnswer 0 ∧
    45 * 60 < spent Cmd.deadline part ∧ spent Cmd.deadline part ≤ 240 + 7140 + 120 := by
  let part := (((runLoop webExternal webCtx 1).trace deployAnswer 0).drop 4).takeWhile
    fun e => !e.1.isPing
  have hin : part <:+: (runLoop webExternal webCtx 1).trace deployAnswer 0 :=
    (List.takeWhile_prefix _).isInfix.trans (List.drop_suffix _ _).isInfix
  have hy : Yields (runLoop webExternal webCtx 1) ((runLoop webExternal webCtx 1).trace deployAnswer 0)
      ((runLoop webExternal webCtx 1).interpret deployAnswer 0).1 :=
    yields_of_run (W := ⟨fun s c r s' => (r, s') = deployAnswer s c⟩) (run_trace (fun _ _ => rfl) _ 0)
  have hbound := gap_bounded hy hin fun e he => by simpa using List.mem_takeWhile_imp he
  refine ⟨part, hin, by decide +kernel, hbound.trans ?_⟩
  decide +kernel

end PveCompose
