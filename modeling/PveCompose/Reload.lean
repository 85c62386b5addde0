import PveCompose.Poll

/-!
# A changed config and the next poll (`ops/daemon.rs`)

A turn whose poll succeeds re-reads the config.  A changed one drops the memo; whether a pass follows
is decided by the token and the clock alone.

* `turn_trace` — the trace of such a turn: the pass it makes, or none;
* `change_planned_iff` — **PROVED**: after a changed config, a pass over every running selected guest
  that has a document is made in the same turn if and only if the token moved or a full pass is due,
  and what that pass asks for is answered;
* `change_not_planned` — a turn that takes the new config and plans nothing.
-/

namespace PveCompose

open Programs

variable {x : External} {ctx : Ctx} {memo memo' : Memo} {tr : List (Event sig)} {ls : List Listed}

/-! ### The turn that takes a changed config -/

/-- Before the turn sleeps, a pass with the config `c` is made: its list is answered, the document of
every guest it reaches is read, and where there is one the guest is attempted for it. -/
def Planned (x : External) (l : LoopCtx) (c : Config) (tr : List (Event sig)) : Prop :=
  ∃ before mid after memo r ls, tr = before ++ mid ++ after ++ [⟨.sleep l.interval, ()⟩] ∧
    Yields (pass x (l.ctx c) memo) mid r ∧ ⟨.list l.node, (.ok ls : Result (List Listed))⟩ ∈ mid ∧
      ∀ g ∈ ls, g.Reached (l.ctx c) → ∃ (a : Result Output) (found : Option Read),
        ⟨.metaGet g.vmid, a⟩ ∈ mid ∧ (a >>= readOutput x g.vmid) = .ok found ∧
          ∀ read, found = some read → AttemptedIn x (l.ctx c) g.vmid read.digest mid

/-- No list fails, and of every guest whose document is asked for, a read succeeds. -/
structure Told (x : External) (l : LoopCtx) (tr : List (Event sig)) : Prop where
  list : ∀ e, ⟨.list l.node, (.error e : Result (List Listed))⟩ ∉ tr
  docs : ∀ v (a : Result Output), ⟨.metaGet v, a⟩ ∈ tr → ∃ (a' : Result Output) (found : Option Read),
    ⟨.metaGet v, a'⟩ ∈ tr ∧ (a' >>= readOutput x v) = .ok found

/-- The trace of a turn whose poll is answered, from that answer on. -/
def afterPoll (answer : Option Text) (now : ℤ) (file : FileRead) (tr : List (Event sig)) :
    List (Event sig) :=
  ⟨.notify "WATCHDOG=1\n", ()⟩ :: ⟨.version, (.ok answer : Result (Option Text))⟩ :: ⟨.now, now⟩
    :: ⟨.loadConfig, file⟩ :: tr

variable {l : LoopCtx} {st st' : LoopState} {answer : Option Text} {now : ℤ} {file : FileRead}
  {c : Config}

theorem list_of_planned (h : Planned x l c tr) :
    ∃ ls, (⟨.list l.node, (.ok ls : Result (List Listed))⟩ : Event sig) ∈ tr := by
  obtain ⟨before, mid, after, memo, r, ls, rfl, -, hlist, -⟩ := h
  exact ⟨ls, by simp [hlist]⟩

/-- What follows the re-read of a changed config. -/
theorem yields_afterPoll (hload : Config.load x.configFromYaml file = .ok c) (hne : c ≠ st.config) :
    Yields (iteration x l st) (afterPoll answer now file tr) st' ↔
      ∃ rest, tr = ⟨.report "configuration changed; planning every guest again", ()⟩ :: rest ∧
        Yields (if answer.getD [] ≠ st.lastToken ∨ fullDue l st now then do
            let st ← startFull { st with config := c, memo := [] } (fullDue l st now)
            let st ← passTurn x l st (answer.getD [])
            Prog.ask (S := sig) (.sleep l.interval)
            pure st
          else do
            Prog.ask (S := sig) (.sleep l.interval)
            pure { st with config := c, memo := [] } : Prog sig LoopState) rest st' := by
  have hreload : reload x st file = (do
      say "configuration changed; planning every guest again"
      pure { st with config := c, memo := [] } : Prog sig LoopState) := by
    unfold reload
    rw [hload]
    exact if_pos hne
  have hturn : Yields (iteration x l st) (afterPoll answer now file tr) st' ↔
      Yields (do
        let st₁ ← reload x st file
        let st₂ ← if answer.getD [] ≠ st₁.lastToken ∨ fullDue l st now then do
            let st₂ ← startFull st₁ (fullDue l st now)
            passTurn x l st₂ (answer.getD [])
          else pure st₁
        Prog.ask (S := sig) (.sleep l.interval)
        pure st₂ : Prog sig LoopState) tr st' := by
    rw [iteration]
    exact yields_cons.trans (yields_cons.trans (yields_cons.trans yields_cons))
  rw [hturn, hreload]
  constructor
  · intro h
    obtain ⟨u, rest, rfl, hrest⟩ := yields_call.mp h
    exact ⟨rest, rfl, hrest⟩
  · rintro ⟨rest, rfl, hrest⟩
    exact yields_cons.mpr hrest

/-- A line that is none of a pass: neither a list nor a document read. -/
def Cmd.AsksNothing : Cmd → Prop
  | .list _ | .metaGet _ => False
  | _ => True

theorem Cmd.OfAttempt.asksNothing {c : Cmd} (h : c.OfAttempt) : c.AsksNothing := by
  cases c with
  | list _ => exact h.elim
  | metaGet _ => exact h.elim
  | _ => trivial

/-- The one list of a pass comes first, and only guests of it that the pass reaches are read. -/
theorem pass_trace {r : Result Unit × Memo} (h : Yields (pass x ctx memo) tr r) :
    ∃ (a : Result (List Listed)) (rest : List (Event sig)), tr = ⟨.list ctx.node, a⟩ :: rest ∧
      ∀ e ∈ rest, (∃ ls, a = .ok ls ∧ ∃ g ∈ ls, g.Reached ctx ∧ e.1 = .metaGet g.vmid) ∨ e.1.AsksNothing := by
  obtain ⟨tr₁, a, rest, rfl, hlist, hrest⟩ := yields_seq.mp h
  obtain rfl := yields_ask.mp hlist
  refine ⟨a, rest, rfl, ?_⟩
  cases a with
  | error e =>
    obtain ⟨rfl, -⟩ := yields_pure.mp hrest
    exact List.forall_mem_nil _
  | ok ls =>
    obtain ⟨tr₂, memo', tr₃, rfl, hall, hend⟩ := yields_seq.mp hrest
    obtain ⟨rfl, -⟩ := yields_pure.mp hend
    rw [List.append_nil]
    intro e he
    rcases visitAll_only hall e he with ⟨g, hg, hread⟩ | hatt
    · exact .inl ⟨ls, rfl, g, hg, hread⟩
    · exact .inr hatt.asksNothing

/-- A turn with a pass that begins with nothing remembered: `mid` is the pass, and no other line is one
of a pass. -/
structure PassMade (x : External) (l : LoopCtx) (c : Config) (mid tr : List (Event sig)) : Prop where
  within : ∃ before after, tr = before ++ mid ++ after ++ [⟨.sleep l.interval, ()⟩]
  pass : ∃ r, Yields (pass x (l.ctx c) []) mid r
  aside : ∀ e ∈ tr, e.1.AsksNothing ∨ e ∈ mid

theorem asksNothing_say {msg : Text} {u : Unit} (h : Yields (say msg) tr u) :
    ∀ e ∈ tr, e.1.AsksNothing := by
  obtain rfl := yields_ask.mp h
  exact List.forall_mem_singleton.mpr trivial

theorem asksNothing_afterPoll (h : ∀ e ∈ tr, e.1.AsksNothing) : ∀ e ∈ afterPoll answer now file
    (⟨.report "configuration changed; planning every guest again", ()⟩ :: tr), e.1.AsksNothing := by
  simpa [afterPoll, Cmd.AsksNothing] using h

/-- The start of a full pass asks for the time at most. -/
theorem startFull_trace {full : Bool} (h : Yields (startFull st full) tr st') :
    st'.config = st.config ∧ (st'.memo = st.memo ∨ st'.memo = []) ∧ ∀ e ∈ tr, e.1.AsksNothing := by
  unfold startFull at h
  split_ifs at h
  · obtain ⟨_, t, _, rfl, hnow, hend⟩ := yields_seq.mp h
    obtain rfl := yields_ask.mp hnow
    obtain ⟨rfl, rfl⟩ := yields_pure.mp hend
    exact ⟨rfl, .inr rfl, List.forall_mem_singleton.mpr trivial⟩
  · obtain ⟨rfl, rfl⟩ := yields_pure.mp h
    exact ⟨rfl, .inl rfl, List.forall_mem_nil _⟩

/-- A turn's pass is a pass, and what is said of its failure. -/
theorem passTurn_trace {token : Text} (h : Yields (passTurn x l st token) tr st') :
    ∃ mid r after, tr = mid ++ after ∧ Yields (pass x (l.ctx st.config) st.memo) mid r ∧
      ∀ e ∈ after, e.1.AsksNothing := by
  obtain ⟨mid, r, after, rfl, hmid, hafter⟩ := yields_seq.mp h
  refine ⟨mid, r, after, rfl, hmid, ?_⟩
  obtain ⟨r, memo⟩ := r
  cases r with
  | error e =>
    obtain ⟨_, u, _, rfl, hsay, hend⟩ := yields_seq.mp hafter
    obtain ⟨rfl, -⟩ := yields_pure.mp hend
    rw [List.append_nil]
    exact asksNothing_say hsay
  | ok u =>
    obtain ⟨rfl, -⟩ := yields_pure.mp hafter
    exact List.forall_mem_nil _

/-- **The trace of a turn that takes a changed config (proved)**: no pass, or one that begins with
nothing remembered, among lines that are none of a pass. -/
theorem turn_trace (h : Yields (iteration x l st) (afterPoll answer now file tr) st')
    (hload : Config.load x.configFromYaml file = .ok c) (hne : c ≠ st.config) :
    ((answer.getD [] ≠ st.lastToken ∨ fullDue l st now) ∧
      ∃ mid, PassMade x l c mid (afterPoll answer now file tr)) ∨
    (¬ (answer.getD [] ≠ st.lastToken ∨ fullDue l st now) ∧
      ∀ e ∈ afterPoll answer now file tr, e.1.AsksNothing) := by
  obtain ⟨rest, rfl, hrest⟩ := (yields_afterPoll hload hne).mp h
  by_cases hcond : answer.getD [] ≠ st.lastToken ∨ fullDue l st now
  · refine .inl ⟨hcond, ?_⟩
    rw [if_pos hcond] at hrest
    obtain ⟨tr₁, st₁, tr₂, rfl, hfull, hrest⟩ := yields_seq.mp hrest
    obtain ⟨tr₃, st₂, tr₄, rfl, hpass, hrest⟩ := yields_seq.mp hrest
    obtain ⟨tr₅, u, tr₆, rfl, hsleep, hend⟩ := yields_seq.mp hrest
    obtain rfl := yields_ask.mp hsleep
    obtain ⟨rfl, -⟩ := yields_pure.mp hend
    obtain ⟨hconfig, hmemo, hbefore⟩ := startFull_trace hfull
    replace hmemo : st₁.memo = [] := hmemo.elim id id
    obtain ⟨mid, r, after, rfl, hmid, hafter⟩ := passTurn_trace hpass
    rw [hconfig, hmemo] at hmid
    have htrace : afterPoll answer now file (⟨.report "configuration changed; planning every guest again", ()⟩
          :: (tr₁ ++ ((mid ++ after) ++ ([⟨.sleep l.interval, ()⟩] ++ []))))
        = afterPoll answer now file (⟨.report "configuration changed; planning every guest again", ()⟩ :: tr₁)
          ++ mid ++ after ++ [⟨.sleep l.interval, ()⟩] := by
      simp [afterPoll]
    refine ⟨mid, ⟨_, after, htrace⟩, ⟨r, hmid⟩, fun e he => ?_⟩
    rw [htrace] at he
    simp only [List.mem_append] at he
    rcases he with ((he | he) | he) | he
    · exact .inl (asksNothing_afterPoll hbefore e he)
    · exact .inr he
    · exact .inl (hafter e he)
    · rw [List.mem_singleton.mp he]
      exact .inl trivial
  · refine .inr ⟨hcond, asksNothing_afterPoll ?_⟩
    rw [if_neg hcond] at hrest
    obtain ⟨tr₁, u, tr₂, rfl, hsleep, hend⟩ := yields_seq.mp hrest
    obtain rfl := yields_ask.mp hsleep
    obtain ⟨rfl, -⟩ := yields_pure.mp hend
    exact List.forall_mem_singleton.mpr trivial

section PassMade

variable {mid : List (Event sig)} {a a' : Result (List Listed)}

theorem PassMade.sub (h : PassMade x l c mid tr) : ∀ e ∈ mid, e ∈ tr := by
  obtain ⟨before, after, rfl⟩ := h.within
  intro e he
  simp only [List.mem_append]
  exact .inl (.inl (.inr he))

/-- A turn with a pass has one list. -/
theorem PassMade.listed (h : PassMade x l c mid tr) (ha : (⟨.list l.node, a⟩ : Event sig) ∈ tr)
    (ha' : (⟨.list l.node, a'⟩ : Event sig) ∈ tr) : a = a' := by
  obtain ⟨r, hr⟩ := h.pass
  obtain ⟨a₀, rest, rfl, honly⟩ := pass_trace hr
  have hone : ∀ a, (⟨.list l.node, a⟩ : Event sig) ∈ tr → a = a₀ := by
    intro a ha
    rcases List.mem_cons.mp ((h.aside _ ha).resolve_left id) with heq | hrest
    · cases heq
      rfl
    · rcases honly _ hrest with ⟨_, -, g, -, -, heq⟩ | haside
      · cases heq
      · exact haside.elim
  exact (hone a ha).trans (hone a' ha').symm

/-- Only guests of the list that the pass reaches are read. -/
theorem PassMade.read (h : PassMade x l c mid tr) {v : ℕ} {a : Result Output}
    (ha : (⟨.metaGet v, a⟩ : Event sig) ∈ tr) : ∃ ls, (⟨.list l.node, .ok ls⟩ : Event sig) ∈ tr ∧
      ∃ g ∈ ls, g.Reached (l.ctx c) ∧ v = g.vmid := by
  obtain ⟨r, hr⟩ := h.pass
  obtain ⟨a₀, rest, rfl, honly⟩ := pass_trace hr
  rcases List.mem_cons.mp ((h.aside _ ha).resolve_left id) with heq | hrest
  · cases heq
  · rcases honly _ hrest with ⟨ls, rfl, g, hg, hreached, heq⟩ | haside
    · cases heq
      exact ⟨ls, h.sub _ List.mem_cons_self, g, hg, hreached, rfl⟩
    · exact haside.elim

/-- Where a pass is planned, its list and the documents were answered. -/
theorem PassMade.told (h : PassMade x l c mid tr) (hplanned : Planned x l c tr) : Told x l tr := by
  obtain ⟨ls, hlist⟩ := list_of_planned hplanned
  refine ⟨fun e he => ?_, fun v a ha => ?_⟩
  · cases h.listed hlist he
  · obtain ⟨before, mid', after, memo, r, ls', htr, -, hlist', hall⟩ := hplanned
    have hsub : ∀ e ∈ mid', e ∈ tr := by
      intro e he
      rw [htr]
      simp only [List.mem_append]
      exact .inl (.inl (.inr he))
    obtain ⟨ls₁, hlist₁, g, hg, hreached, rfl⟩ := h.read ha
    obtain rfl : ls₁ = ls' := Except.ok.inj (h.listed hlist₁ (hsub _ hlist'))
    obtain ⟨a₁, found, hread, hok, -⟩ := hall g hg hreached
    exact ⟨a₁, found, hsub _ hread, hok⟩

/-- A pass that is answered is planned. -/
theorem PassMade.planned (h : PassMade x l c mid tr) (htold : Told x l tr) : Planned x l c tr := by
  obtain ⟨before, after, htr⟩ := h.within
  obtain ⟨r, hmid⟩ := h.pass
  obtain ⟨a, rest, rfl, hcovers⟩ := covers_of_pass hmid
  cases a with
  | error e => exact absurd (h.sub _ List.mem_cons_self) (htold.list e)
  | ok ls =>
    have hall := hcovers ls rfl
    refine ⟨before, _, after, [], r, ls, htr, hmid, List.mem_cons_self, fun g hg hreached => ?_⟩
    obtain ⟨a₁, ha₁⟩ := hall.reads g hg hreached
    obtain ⟨a₂, found, ha₂, hfound⟩ := htold.docs _ _ (h.sub _ ha₁)
    have ha₂' := (h.aside _ ha₂).resolve_left id
    exact ⟨a₂, found, ha₂', hfound, fun read hread => hall.heeds _ _ _ ha₂' (hread ▸ hfound)⟩

end PassMade

/-- **When a changed config is planned (proved)**: a turn whose poll succeeds and whose re-read gives
another config makes a pass with it over every running selected guest that has a document, before it
sleeps, if and only if the token moved or a full pass is due, and the list and the documents the turn
asks for are answered. -/
theorem change_planned_iff
    (h : Yields (iteration x l st) (afterPoll answer now file tr) st')
    (hload : Config.load x.configFromYaml file = .ok c) (hne : c ≠ st.config) :
    Planned x l c (afterPoll answer now file tr) ↔
      (answer.getD [] ≠ st.lastToken ∨ fullDue l st now) ∧ Told x l (afterPoll answer now file tr) := by
  rcases turn_trace h hload hne with ⟨hcond, mid, hmade⟩ | ⟨hcond, haside⟩
  · exact ⟨fun hplanned => ⟨hcond, hmade.told hplanned⟩, fun htold => hmade.planned htold.2⟩
  · -- a turn that makes no pass asks for no list
    refine ⟨fun hplanned => ?_, fun hcond' => absurd hcond'.1 hcond⟩
    obtain ⟨ls, hlist⟩ := list_of_planned hplanned
    exact (haside _ hlist).elim

/-! ### Two turns that take a changed config -/

/-- A loop in its second turn, ten seconds after the first: guest 105 is remembered. -/
def webLoopCtx : LoopCtx := { node := "pve", tag := none, interval := 30, fullEvery := 600 }

def webLoopState : LoopState where
  config := Config.default
  lastToken := "1"
  lastFull := 0
  memo := [(105, webExternal.digest (webText "nginx"))]

theorem slow_load : Config.load pollExternal.configFromYaml (.text slowText) = .ok slowConfig := by
  have htext : Words.strip isSpace slowText ≠ [] := by decide
  have hread : pollExternal.configFromYaml slowText = .ok slowConfig := by
    show (Assoc.get? slowText [(slowText, slowConfig)]).elim (bail "not read here") .ok = _
    rw [Assoc.get?_cons, if_pos rfl]
    rfl
  rw [Config.load, if_neg htext, hread]
  rfl

theorem slow_ne : slowConfig ≠ webLoopState.config := by decide

/-- The turn in which the new config is taken. -/
def takenTrace (token : Text) (tr : List (Event sig)) : List (Event sig) :=
  afterPoll (some token) (10 * 10 ^ 9) (.text slowText)
    (⟨.report "configuration changed; planning every guest again", ()⟩ :: tr)

/-- The store of guest 105 with a token that moved, and the new config in the file. -/
def movedStore : Store := { webStore with token := "2", file := .text slowText }

/-- What follows the re-read in the turn that finds that store. -/
def movedTail : List (Event sig) :=
  ((iteration pollExternal webLoopCtx webLoopState).trace (pollAnswer false) movedStore).drop 4

theorem moved_yields : Yields (iteration pollExternal webLoopCtx webLoopState)
    (afterPoll (some "2") 0 (.text slowText) movedTail)
    ((iteration pollExternal webLoopCtx webLoopState).interpret (pollAnswer false) movedStore).1 :=
  yields_of_run (run_trace (W := storeWorld pollExternal) (pollAnswer_reply false) _ movedStore)

/-- `Told`, computed: no list and no document read fails. -/
def telling (x : External) (tr : List (Event sig)) : Bool :=
  tr.all fun
    | ⟨.list _, a⟩ => a.isOk
    | ⟨.metaGet v, a⟩ => (a >>= readOutput x v).isOk
    | _ => true

theorem told_of_telling (h : telling x tr = true) : Told x l tr where
  list e he := absurd (List.all_eq_true.mp h _ he) Bool.false_ne_true
  docs v a ha := by
    have hok := List.all_eq_true.mp h _ ha
    cases hfound : a >>= readOutput x v with
    | error e =>
      dsimp only at hok
      rw [hfound] at hok
      exact absurd hok Bool.false_ne_true
    | ok found => exact ⟨a, found, ha, hfound⟩

/-- The token moved: the new config is planned with, and guest 105 is written to, though it was
remembered. -/
theorem change_planned_web :
    Planned pollExternal webLoopCtx slowConfig (afterPoll (some "2") 0 (.text slowText) movedTail) ∧
      movedTail.any (fun
        | ⟨.writeCompose v _, _⟩ => v = 105
        | _ => false) = true := by
  obtain ⟨htelling, hwritten⟩ : telling pollExternal (afterPoll (some "2") 0 (.text slowText) movedTail)
      = true ∧ movedTail.any (fun
        | ⟨.writeCompose v _, _⟩ => v = 105
        | _ => false) = true := by decide +kernel
  exact ⟨(change_planned_iff moved_yields slow_load slow_ne).mpr
    ⟨.inl (by decide), told_of_telling htelling⟩, hwritten⟩

/-- **A changed config that is not planned with**: the token is the one remembered and no full pass is
due, so the turn takes the new config and sleeps. -/
theorem change_not_planned :
    (∃ st', Yields (iteration pollExternal webLoopCtx webLoopState)
      (takenTrace "1" [⟨.sleep 30, ()⟩]) st') ∧
    Config.load pollExternal.configFromYaml (.text slowText) = .ok slowConfig ∧
    slowConfig ≠ webLoopState.config ∧
    ¬ Planned pollExternal webLoopCtx slowConfig (takenTrace "1" [⟨.sleep 30, ()⟩]) := by
  have hturn : Yields (iteration pollExternal webLoopCtx webLoopState)
      (takenTrace "1" [⟨.sleep 30, ()⟩])
      { webLoopState with config := slowConfig, memo := [] } := by
    refine (yields_afterPoll slow_load slow_ne).mpr ⟨_, rfl, ?_⟩
    rw [if_neg (by decide)]
    exact yields_cons.mpr .ret
  refine ⟨⟨_, hturn⟩, slow_load, slow_ne, ?_⟩
  intro hplanned
  obtain ⟨a, hlist⟩ := list_of_planned hplanned
  simp [takenTrace, afterPoll] at hlist

end PveCompose
