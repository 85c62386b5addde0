import PveCompose.Capture
import PveCompose.Locks
import PveCompose.Lib.Deadline

/-!
# What is waited for (`lock.rs`, `pct.rs`, `cmd.rs`)

Three loops look, read the clock and sleep until a deadline: for a guest's lock, for a guest that was
started, for a command with the terminal.  Meanwhile other processes take and give back locks, and what
was started may end.  Times are in nanoseconds.

* `SysCmd`, `systemWorld` — what the loops ask of the system, and what it may do meanwhile;
* `take_is_lock` — **PROVED**: the loop for a lock is the one command that the verbs issue for it, at
  one moment among the steps of the others, and its wait is the one that was asked for;
* `wait_ready_in_time` — **PROVED**: a guest is ready when a probe said so, and is given up in time;
* `stream_in_time` — **PROVED**: every result of a command that was streamed is that of the call it comes
  from, the command is over when it is there, and it is killed only past its deadline, with all it left
  where nobody watches.
-/

namespace PveCompose

open Programs Locking

def seconds (n : ℕ) : ℕ := n * 10 ^ 9

def millis (n : ℕ) : ℕ := n * 10 ^ 6

def TIMEOUT : ℕ := 120

/-! ### Commands -/

inductive SysCmd where
  | now : SysCmd
  | sleep : ℕ → SysCmd
  | createDir : Text → SysCmd
  | openFile : Text → SysCmd
  | flock : Text → SysCmd
  | execStatus : ℕ → Text → SysCmd
  | spawn : Text → List Text → Bool → SysCmd
  | tryWait : SysCmd
  | kill : Bool → SysCmd
  | reap : SysCmd

/-- A try for a lock says whether it was granted; any error but `EWOULDBLOCK` is one. -/
abbrev SysCmd.Answer : SysCmd → Type
  | .now => ℕ
  | .sleep _ | .kill _ | .reap => Unit
  | .createDir _ | .openFile _ | .spawn _ _ _ => Result Unit
  | .flock _ => Result Bool
  | .execStatus _ _ => Result Output
  | .tryWait => Result (Option Exit)

abbrev sysSig : Sig := ⟨SysCmd, SysCmd.Answer⟩

/-- A loop gives nothing where its rounds are over. -/
abbrev SysM := Fallible sysSig Error

/-- The clock and the pause of every loop. -/
def patience {γ : Type} (look : Prog sysSig (Option γ)) (pause : ℕ) : Patience sysSig γ where
  look := look
  now := Prog.ask (S := sysSig) .now
  pause := Prog.ask (S := sysSig) (.sleep pause)

/-! ### `GuestLock::take` -/

def LOCK_DIR : Text := "/run/lock/pve-compose"

def lockPath (vmid : ℕ) : Text := LOCK_DIR ++ "/" ++ dec vmid ++ ".lock"

/-- A try for the lock. -/
def tryLock (path : Text) : Prog sysSig (Option (Result Unit)) := do
  match ← Prog.ask (S := sysSig) (.flock path) with
  | .ok true => pure (some (.ok ()))
  | .ok false => pure none
  | .error e => pure (some (withContext ("flock " ++ path) (.error e)))

def busy (vmid : ℕ) : Error :=
  ⟨["guest " ++ dec vmid ++ " is busy (another pve-compose holds " ++ lockPath vmid ++ ")"]⟩

/-- `GuestLock::take`. -/
def GuestLock.take (vmid waitSecs rounds : ℕ) : SysM (Option Unit) := do
  .issue (S := sysSig) (.createDir LOCK_DIR) (withContext ("cannot create " ++ LOCK_DIR))
  let path := lockPath vmid
  .issue (S := sysSig) (.openFile path) (withContext ("cannot open " ++ path))
  let waited ← .lift ((patience (tryLock path) (millis 250)).wait (seconds waitSecs) rounds)
  match waited with
  | .found r => .ofExcept (r.map some)
  | .late => .throw (busy vmid)
  | .cut => pure none

/-! ### `pct::wait_ready` -/

def readyScript : Text := "ip route show default 2>/dev/null | grep -q ."

/-- A probe: an error is no answer. -/
def probe (vmid : ℕ) : Prog sysSig (Option Unit) := do
  match ← Prog.ask (S := sysSig) (.execStatus vmid readyScript) with
  | .ok out => pure (if out.status = 0 then some () else none)
  | .error _ => pure none

def notReady (vmid secs : ℕ) : Error :=
  ⟨["guest " ++ dec vmid ++ ": no default route after " ++ dec secs ++ "s"]⟩

/-- `pct::wait_ready`. -/
def waitReady (vmid secs rounds : ℕ) : SysM (Option Unit) := do
  let waited ← .lift ((patience (probe vmid) (seconds 2)).wait (seconds secs) rounds)
  match waited with
  | .found _ => pure (some ())
  | .late => .throw (notReady vmid secs)
  | .cut => pure none

/-! ### `cmd::stream_within` -/

/-- `render`: a command line as it is said, which the shell is not meant to read. -/
def renderCommand (program : Text) (args : List Text) : Text :=
  program ++ args.flatMap fun a => ' ' :: if ' ' ∈ a ∨ a = [] then "'" ++ a ++ "'" else a

/-- `finish`. -/
def finishCommand (program : Text) (args : List Text) (status : Exit) : Result Unit :=
  if status = some 0 then .ok ()
  else bail (renderCommand program args ++ " failed (exit " ++ decInt (status.getD (-1)) ++ ")")

/-- `child.try_wait()?`. -/
def tryWait : Prog sysSig (Option (Result Exit)) := do
  match ← Prog.ask (S := sysSig) .tryWait with
  | .ok status => pure (status.map .ok)
  | .error e => pure (some (.error e))

/-- `stream_within`; without a terminal the command leads a group of its own. -/
def streamWithin (interactive : Bool) (program : Text) (args : List Text) (timeout rounds : ℕ) :
    SysM (Option Unit) := do
  .issue (S := sysSig) (.spawn program args !interactive) (withContext ("cannot run " ++ program))
  let waited ← .lift ((patience tryWait (millis 100)).wait (seconds timeout) rounds)
  match waited with
  | .found r => .ofExcept (r >>= fun status => (finishCommand program args status).map some)
  | .late => do
    .issue (S := sysSig) (.kill !interactive) .ok
    .issue (S := sysSig) .reap .ok
    .ofExcept (bail (renderCommand program args ++ ": no answer after " ++ dec timeout ++ "s, killed"))
  | .cut => pure none

/-! ### The system -/

/-- A process that was started: how it ended, and how many others of its group are left. -/
structure Child where
  status : Option Exit
  rest : ℕ

/-- The system, as one process sees it: the clock, who holds which lock file, and what it started. -/
structure System (ι : Type) where
  clock : ℕ
  holders : Holders Text ι
  child : Option Child

section

variable {ι : Type}

/-- The others take and give back what is not `i`'s. -/
def Elsewhere (i : ι) (h h' : Holders Text ι) : Prop := ∀ path, h path = some i ↔ h' path = some i

/-- What is over stays over, and a group that is empty stays so. -/
structure Child.Goes (c c' : Child) : Prop where
  status : c.status ≠ none → c'.status = c.status
  rest : c.status ≠ none → c.rest = 0 → c'.rest = 0

/-- What was started goes on; nothing starts by itself. -/
def Going : Option Child → Option Child → Prop
  | none, c' => c' = none
  | some c, c' => ∃ d, c' = some d ∧ c.Goes d

/-- What goes on beside a command that takes from `least` to `most`. -/
structure Meanwhile (i : ι) (least most : ℕ) (s s' : System ι) : Prop where
  holders : Elsewhere i s.holders s'.holders
  child : Going s.child s'.child
  least : s.clock + least ≤ s'.clock
  most : s'.clock ≤ s.clock + most

/-- A process that gets `SIGKILL`, alone or with its group, if it has not ended. -/
def Child.killed (group : Bool) (c : Child) : Child :=
  ⟨some (c.status.getD none), if group then 0 else c.rest⟩

/-- What each command does, for the process `i`, which is late by `lag` at most. -/
def SysEffect (i : ι) (lag : ℕ) (s : System ι) : (c : SysCmd) → c.Answer → System ι → Prop
  | .now, t, s' => Meanwhile i 0 lag s s' ∧ s.clock ≤ t ∧ t ≤ s'.clock
  | .sleep d, _, s' => Meanwhile i d (d + lag) s s'
  | .createDir _, _, s' | .openFile _, _, s' => Meanwhile i 0 lag s s'
  | .execStatus _ _, _, s' => Meanwhile i 0 (seconds TIMEOUT + lag) s s'
  | .flock path, r, s' => ∃ t, Meanwhile i 0 lag s t ∧ match r with
    | .ok true => t.holders path = none ∧
        s' = { t with holders := Function.update t.holders path (some i) }
    | .ok false => (∃ j, t.holders path = some j) ∧ s' = t
    | .error _ => s' = t
  | .spawn _ _ _, r, s' => ∃ t, Meanwhile i 0 lag s t ∧ match r with
    | .ok _ => ∃ c, s' = { t with child := some c }
    | .error _ => s' = t
  | .tryWait, r, s' => Meanwhile i 0 lag s s' ∧ ∀ status, r = .ok status →
      s'.child.map Child.status = some status
  | .kill group, _, s' => ∃ t, Meanwhile i 0 lag s t ∧
      s' = { t with child := t.child.map (Child.killed group) }
  | .reap, _, s' => Meanwhile i 0 lag s s'

def systemWorld (i : ι) (lag : ℕ) : World sysSig (System ι) := ⟨SysEffect i lag⟩

theorem Elsewhere.refl (i : ι) (h : Holders Text ι) : Elsewhere i h h := fun _ => Iff.rfl

theorem Elsewhere.trans {i : ι} {h h₁ h₂ : Holders Text ι} (hab : Elsewhere i h h₁)
    (hbc : Elsewhere i h₁ h₂) : Elsewhere i h h₂ := fun path => (hab path).trans (hbc path)

theorem Child.Goes.refl (c : Child) : c.Goes c := ⟨fun _ => rfl, fun _ h => h⟩

theorem Going.refl : ∀ c : Option Child, Going c c
  | none => rfl
  | some c => ⟨c, rfl, .refl c⟩

/-- What a loop does between two looks. -/
def SysCmd.Idle : SysCmd → Prop
  | .now | .sleep _ => True
  | _ => False

variable {i : ι} {lag pause longest : ℕ} {γ : Type} {look : Prog sysSig (Option γ)}
  {J : ℕ → System ι × List (Event sysSig) → Prop} {F : ℕ → γ → System ι × List (Event sysSig) → Prop}

/-- **Every loop is paced (proved)**, if what it knows stays so beside the clock and the pause. -/
theorem paced_patience
    (hJ : ∀ k least most s s' l, ∀ ev : Event sysSig, J k (s, l) → Meanwhile i least most s s' →
      ev.1.Idle → J k (s', l ++ [ev]))
    (hlook : ∀ k s, J k s → wp (systemWorld i lag).traced (fun _ _ => True) look (fun r s' =>
      s.1.clock ≤ s'.1.clock ∧ s'.1.clock ≤ s.1.clock + longest ∧
        r.elim (J (k + 1) s') fun g => F (k + 1) g s') s) :
    Paced (systemWorld i lag).traced (fun _ _ => True) (patience look pause) (fun s => s.1.clock) pause
      longest lag J F where
  look := hlook
  now k s hs := by
    refine ⟨trivial, ?_⟩
    rintro t ⟨s', _⟩ ⟨⟨hm, hfrom, hto⟩, rfl⟩
    exact ⟨hJ k _ _ s.1 s' s.2 _ hs hm trivial, hfrom, hto, hm.most⟩
  pause k s hs := by
    refine ⟨trivial, ?_⟩
    rintro u ⟨s', _⟩ ⟨hm : Meanwhile i pause (pause + lag) s.1 s', rfl⟩
    have hmost := hm.most
    exact ⟨hJ k _ _ s.1 s' s.2 _ hs hm trivial, hm.least, by show s'.clock ≤ _; omega⟩

/-! ### The lock of a guest -/

theorem lockPath_injective : Function.Injective lockPath := by
  intro v w h
  have hdec : dec v = dec w := by
    simpa [lockPath] using h
  rw [← parseNat_dec v, ← parseNat_dec w, hdec]

/-- The locks, each named by its guest. -/
def byGuest (h : Holders Text ι) : Holders ℕ ι := fun vmid => h (lockPath vmid)

theorem byGuest_update (h : Holders Text ι) (vmid : ℕ) (o : Option ι) :
    byGuest (Function.update h (lockPath vmid) o) = Function.update (byGuest h) vmid o := by
  funext v
  by_cases hv : v = vmid
  · subst hv
    rw [Function.update_self]
    exact Function.update_self _ _ _
  · rw [Function.update_of_ne hv]
    exact Function.update_of_ne (fun hpath => hv (lockPath_injective hpath)) _ _

/-- What a call that the loop for a lock makes is answered, and the error the loop then has. -/
inductive TakeFailed (vmid : ℕ) : Event sysSig → Error → Prop where
  | createDir (e : Error) : TakeFailed vmid ⟨.createDir LOCK_DIR, .error e⟩
      ⟨("cannot create " ++ LOCK_DIR) :: e.chain⟩
  | openFile (e : Error) : TakeFailed vmid ⟨.openFile (lockPath vmid), .error e⟩
      ⟨("cannot open " ++ lockPath vmid) :: e.chain⟩
  | flock (e : Error) : TakeFailed vmid ⟨.flock (lockPath vmid), .error e⟩
      ⟨("flock " ++ lockPath vmid) :: e.chain⟩

/-- What is known after `k` tries that were refused. -/
structure Refused (i : ι) (vmid : ℕ) (s : System ι) (k : ℕ) (s' : System ι × List (Event sysSig)) :
    Prop where
  holders : Elsewhere i s.holders s'.1.holders
  tried : 0 < k → (⟨.flock (lockPath vmid), .ok false⟩ : Event sysSig) ∈ s'.2

/-- The lock was free at some moment, and has been `i`'s since. -/
def Granted (i : ι) (vmid : ℕ) (s s' : System ι) : Prop :=
  ∃ t, Elsewhere i s.holders t ∧ t (lockPath vmid) = none ∧
    s'.holders = Function.update t (lockPath vmid) (some i)

/-- The last call of the trace failed, and the error is its own. -/
def FailedLast (vmid : ℕ) (l : List (Event sysSig)) (e : Error) : Prop :=
  ∃ pre ev, l = pre ++ [ev] ∧ TakeFailed vmid ev e

/-- What a try that ends the loop has come to. -/
def Tried (i : ι) (vmid : ℕ) (s : System ι) : Result Unit → System ι × List (Event sysSig) → Prop
  | .ok _, s' => Granted i vmid s s'.1
  | .error e, s' => Elsewhere i s.holders s'.1.holders ∧ FailedLast vmid s'.2 e

variable {s : System ι} {vmid waitSecs n : ℕ}

theorem wp_tryLock {k : ℕ} {s₁ : System ι × List (Event sysSig)} (h : Refused i vmid s k s₁) :
    wp (systemWorld i lag).traced (fun _ _ => True) (tryLock (lockPath vmid)) (fun r s' =>
      s₁.1.clock ≤ s'.1.clock ∧ s'.1.clock ≤ s₁.1.clock + lag ∧
        r.elim (Refused i vmid s (k + 1) s') fun g => Tried i vmid s g s') s₁ := by
  refine (wp_seq _ _ _ _).mpr ⟨trivial, ?_⟩
  rintro r ⟨s', _⟩ ⟨⟨t, hm, hr⟩, rfl⟩
  have hfrom : s₁.1.clock ≤ t.clock := hm.least
  have hto : t.clock ≤ s₁.1.clock + lag := hm.most
  have ht := h.holders.trans hm.holders
  cases r with
  | error e =>
    obtain rfl : s' = t := hr
    exact ⟨hfrom, hto, ht, s₁.2, _, rfl, .flock e⟩
  | ok granted =>
    cases granted with
    | true =>
      obtain ⟨hfree, rfl⟩ := hr
      exact ⟨hfrom, hto, t.holders, ht, hfree, rfl⟩
    | false =>
      obtain ⟨-, rfl⟩ := hr
      exact ⟨hfrom, hto, ht, fun _ => List.mem_append_right _ (List.mem_singleton_self _)⟩

/-- **The loop for a lock (proved).** -/
theorem wp_take (hrounds : 4 * waitSecs ≤ n) :
    wp (systemWorld i lag).traced (fun _ _ => True) (GuestLock.take vmid waitSecs (n + 1)).run
      (Ends (fun o s' => o = some () ∧ Granted i vmid s s'.1 ∧
          s'.1.clock ≤ s.clock + seconds waitSecs + millis 250 + 7 * lag)
        fun e s' => Elsewhere i s.holders s'.1.holders ∧
          s'.1.clock ≤ s.clock + seconds waitSecs + millis 250 + 7 * lag ∧
          (FailedLast vmid s'.2 e ∨ e = busy vmid ∧ s.clock + seconds waitSecs ≤ s'.1.clock ∧
            ⟨.flock (lockPath vmid), .ok false⟩ ∈ s'.2)) (s, []) := by
  have hpaced : Paced (systemWorld i lag).traced (fun _ _ => True)
      (patience (tryLock (lockPath vmid)) (millis 250)) (fun s => s.1.clock) (millis 250) lag lag
      (Refused i vmid s) fun _ => Tried i vmid s := by
    refine paced_patience ?_ fun _ _ => wp_tryLock
    intro k least most s₁ s₂ l ev h hm _
    exact ⟨h.holders.trans hm.holders, fun hk => List.mem_append_left _ (h.tried hk)⟩
  have hlimit : seconds waitSecs ≤ millis 250 * n := by
    unfold seconds millis
    omega
  rw [GuestLock.take, wp_bind]
  refine ⟨trivial, ?_⟩
  rintro r ⟨s₁, _⟩ ⟨h₁ : Meanwhile i 0 lag s s₁, rfl⟩
  have hleast₁ := h₁.least
  have hmost₁ := h₁.most
  cases r with
  | error e => exact ⟨h₁.holders, by show s₁.clock ≤ _; omega, .inl ⟨[], _, rfl, .createDir e⟩⟩
  | ok u =>
    show wp _ _ (Fallible.run (_ >>= _)) _ _
    rw [wp_bind]
    refine ⟨trivial, ?_⟩
    rintro r ⟨s₂, _⟩ ⟨h₂ : Meanwhile i 0 lag s₁ s₂, rfl⟩
    have hleast₂ := h₂.least
    have hmost₂ := h₂.most
    have hholders : Elsewhere i s.holders s₂.holders := h₁.holders.trans h₂.holders
    cases r with
    | error e => exact ⟨hholders, by show s₂.clock ≤ _; omega, .inl ⟨_, _, rfl, .openFile e⟩⟩
    | ok u =>
      show wp _ _ (Fallible.run (_ >>= _)) _ _
      rw [wp_bind, wp_lift]
      refine wp_mono (wp_wait hpaced ⟨hholders, fun hk => absurd hk (lt_irrefl 0)⟩ hlimit) ?_
      rintro waited ⟨s₃, l⟩ ⟨hend, htime⟩
      replace htime : s₃.clock ≤ s₂.clock + seconds waitSecs + millis 250 + lag + 4 * lag := htime
      cases waited with
      | cut => exact hend.elim
      | late =>
        obtain ⟨⟨k, hk⟩, hpast⟩ := hend
        replace hpast : s₂.clock + seconds waitSecs ≤ s₃.clock := hpast
        exact ⟨hk.holders, by show s₃.clock ≤ _; omega,
          .inr ⟨rfl, by show _ ≤ s₃.clock; omega, hk.tried k.succ_pos⟩⟩
      | found r =>
        obtain ⟨k, hk⟩ := hend
        cases r with
        | ok u => exact ⟨rfl, hk, by show s₃.clock ≤ _; omega⟩
        | error e => exact ⟨hk.1, by show s₃.clock ≤ _; omega, .inl hk.2⟩

/-! ### A guest that was started -/

/-- The guest answered, and has a default route. -/
def RouteUp (r : Result Output) : Prop := ∃ out, r = .ok out ∧ out.status = 0

/-- What the probes of a trace were answered. -/
def probes (tr : List (Event sysSig)) : List (Result Output) := tr.filterMap fun
  | ⟨.execStatus _ _, r⟩ => some r
  | _ => none

/-- What is known after `k` probes of a guest that is not ready. -/
def Probed (k : ℕ) (l : List (Event sysSig)) : Prop := (probes l).length = k ∧ ∀ p ∈ probes l, ¬ RouteUp p

/-- The last of `k` probes found it ready. -/
def Answered (k : ℕ) (l : List (Event sysSig)) : Prop :=
  ∃ ps p, probes l = ps ++ [p] ∧ ps.length + 1 = k ∧ (∀ q ∈ ps, ¬ RouteUp q) ∧ RouteUp p

theorem wp_probe {k : ℕ} {s₁ : System ι × List (Event sysSig)} (h : Probed k s₁.2) :
    wp (systemWorld i lag).traced (fun _ _ => True) (probe vmid) (fun r s' =>
      s₁.1.clock ≤ s'.1.clock ∧ s'.1.clock ≤ s₁.1.clock + (seconds TIMEOUT + lag) ∧
        r.elim (Probed (k + 1) s'.2) fun _ => Answered (k + 1) s'.2) s₁ := by
  refine (wp_seq _ _ _ _).mpr ⟨trivial, ?_⟩
  rintro r ⟨s', _⟩ ⟨hm : Meanwhile i 0 (seconds TIMEOUT + lag) s₁.1 s', rfl⟩
  have hfrom : s₁.1.clock ≤ s'.clock := hm.least
  obtain ⟨hlen, hall⟩ := h
  have hprobes : probes (s₁.2 ++ [⟨.execStatus vmid readyScript, r⟩]) = probes s₁.2 ++ [r] :=
    List.filterMap_append
  have hnot (hr : ¬ RouteUp r) : Probed (k + 1) (s₁.2 ++ [⟨.execStatus vmid readyScript, r⟩]) := by
    rw [Probed, hprobes]
    refine ⟨by rw [List.length_append, hlen]; rfl, fun p hp => ?_⟩
    rcases List.mem_append.mp hp with hp | hp
    · exact hall p hp
    · rwa [List.mem_singleton.mp hp]
  cases r with
  | error e => exact ⟨hfrom, hm.most, hnot fun ⟨out, hout, _⟩ => by cases hout⟩
  | ok out =>
    rw [wp_ret]
    dsimp only
    split_ifs with hstatus
    · exact ⟨hfrom, hm.most, probes s₁.2, .ok out, hprobes, by omega, hall, out, rfl, hstatus⟩
    · refine ⟨hfrom, hm.most, hnot ?_⟩
      rintro ⟨_, ⟨⟩, hzero⟩
      exact hstatus hzero

/-- **The wait for a guest (proved).** -/
theorem wp_waitReady {secs : ℕ} (hrounds : secs ≤ 2 * n) :
    wp (systemWorld i lag).traced (fun _ _ => True) (waitReady vmid secs (n + 1)).run (fun r s' =>
      s'.1.clock ≤ s.clock + seconds (secs + 2 + TIMEOUT) + 5 * lag ∧ Ends
        (fun o s' => o = some () ∧ ∃ k, Answered (k + 1) s'.2)
        (fun e s' => e = notReady vmid secs ∧ s.clock + seconds secs ≤ s'.1.clock ∧
          ∃ k, Probed (k + 1) s'.2) r s') (s, []) := by
  have hpaced : Paced (systemWorld i lag).traced (fun _ _ => True) (patience (probe vmid) (seconds 2))
      (fun s => s.1.clock) (seconds 2) (seconds TIMEOUT + lag) lag (fun k s => Probed k s.2)
      fun k _ s => Answered k s.2 := by
    refine paced_patience ?_ fun _ _ => wp_probe
    rintro k least most s₁ s₂ l ⟨c, r⟩ h hm hidle
    have hprobes : probes (l ++ [⟨c, r⟩]) = probes l := by
      cases c with
      | now | sleep _ => exact List.filterMap_append.trans (List.append_nil _)
      | _ => exact hidle.elim
    show Probed _ _
    rwa [Probed, hprobes]
  have hlimit : seconds secs ≤ seconds 2 * n := by
    unfold seconds
    omega
  have hsum : seconds (secs + 2 + TIMEOUT) = seconds secs + seconds 2 + seconds TIMEOUT := by
    unfold seconds
    omega
  show wp _ _ (Fallible.run (_ >>= _)) _ _
  rw [← ends_eta (fun r s' => _ ∧ Ends _ _ r s'), wp_bind, wp_lift]
  refine wp_mono (wp_wait hpaced ⟨rfl, nofun⟩ hlimit) ?_
  rintro waited ⟨s', l⟩ ⟨hend, htime⟩
  replace htime : s'.clock ≤ s.clock + seconds secs + seconds 2 + (seconds TIMEOUT + lag) + 4 * lag :=
    htime
  have hwithin : s'.clock ≤ s.clock + seconds (secs + 2 + TIMEOUT) + 5 * lag := by omega
  cases waited with
  | cut => exact hend.elim
  | late =>
    obtain ⟨hprobed, hpast⟩ := hend
    exact ⟨hwithin, rfl, hpast, hprobed⟩
  | found u => exact ⟨hwithin, rfl, hend⟩

/-! ### A command with the terminal -/

variable {interactive : Bool} {program : Text} {args : List Text} {timeout : ℕ}

/-- A trace of a command that was started, and then only waited for. -/
def Spawned (program : Text) (args : List Text) (group : Bool) (l : List (Event sysSig)) : Prop :=
  ∃ pre, l = ⟨.spawn program args group, .ok ()⟩ :: pre ∧ ∀ ev ∈ pre, ev.1.Idle ∨ ev.1 = .tryWait

/-- How a command that is streamed ends: the trace with the call that the result comes from. -/
inductive Streamed (interactive : Bool) (program : Text) (args : List Text) (timeout : ℕ)
    (s : System ι) : List (Event sysSig) → Except Error (Option Unit) → System ι → Prop where
  | notRun {s' : System ι} (e : Error) : Going s.child s'.child →
      Streamed interactive program args timeout s [⟨.spawn program args !interactive, .error e⟩]
        (.error ⟨("cannot run ".toList ++ program) :: e.chain⟩) s'
  | well {s' : System ι} {l : List (Event sysSig)} : Spawned program args (!interactive) l →
      s'.child.map Child.status = some (some (some 0)) →
      Streamed interactive program args timeout s (l ++ [⟨.tryWait, .ok (some (some 0))⟩])
        (.ok (some ())) s'
  | failed {s' : System ι} {l : List (Event sysSig)} (status : Exit) :
      Spawned program args (!interactive) l → status ≠ some 0 →
      s'.child.map Child.status = some (some status) →
      Streamed interactive program args timeout s (l ++ [⟨.tryWait, .ok (some status)⟩])
        (.error ⟨[renderCommand program args ++ " failed (exit " ++ decInt (status.getD (-1)) ++ ")"]⟩) s'
  | lost {s' : System ι} {l : List (Event sysSig)} (e : Error) : Spawned program args (!interactive) l →
      Streamed interactive program args timeout s (l ++ [⟨.tryWait, .error e⟩]) (.error e) s'
  | killed {s' : System ι} {l : List (Event sysSig)} (c : Child) : Spawned program args (!interactive) l →
      s.clock + seconds timeout ≤ s'.clock → s'.child = some c → c.status.isSome →
      (interactive = false → c.rest = 0) →
      Streamed interactive program args timeout s
        (l ++ [⟨.kill !interactive, ()⟩, ⟨.reap, ()⟩])
        (.error ⟨[renderCommand program args ++ ": no answer after " ++ dec timeout ++ "s, killed"]⟩) s'

/-- What is known while the command is waited for. -/
structure Started (program : Text) (args : List Text) (group : Bool)
    (s : System ι × List (Event sysSig)) : Prop where
  child : ∃ c, s.1.child = some c
  spawned : Spawned program args group s.2

/-- What is known when the wait is over before its time. -/
structure Over (program : Text) (args : List Text) (group : Bool) (g : Result Exit)
    (s : System ι × List (Event sysSig)) : Prop where
  child : ∀ status, g = .ok status → s.1.child.map Child.status = some (some status)
  last : ∃ l, Spawned program args group l ∧ s.2 = l ++ [⟨.tryWait, g.map some⟩]

theorem Child.stays {least most : ℕ} {s₁ s₂ : System ι} (h : ∃ c, s₁.child = some c)
    (hm : Meanwhile i least most s₁ s₂) : ∃ c, s₂.child = some c := by
  obtain ⟨c, hc⟩ := h
  have hgoing := hm.child
  rw [hc] at hgoing
  obtain ⟨d, hd, -⟩ := hgoing
  exact ⟨d, hd⟩

theorem Started.meanwhile {group : Bool} {least most : ℕ} {s₁ s₂ : System ι} {l : List (Event sysSig)}
    {ev : Event sysSig} (h : Started program args group (s₁, l)) (hm : Meanwhile i least most s₁ s₂)
    (hev : ev.1.Idle ∨ ev.1 = .tryWait) : Started program args group (s₂, l ++ [ev]) := by
  obtain ⟨pre, hpre, hwaits⟩ := h.spawned
  refine ⟨Child.stays h.child hm, pre ++ [ev], ?_, fun e he => ?_⟩
  · show l ++ [ev] = _
    rw [show l = _ from hpre, List.cons_append]
  · rcases List.mem_append.mp he with he | he
    · exact hwaits e he
    · rwa [List.mem_singleton.mp he]

theorem wp_tryWait {group : Bool} {s₁ : System ι × List (Event sysSig)}
    (h : Started program args group s₁) :
    wp (systemWorld i lag).traced (fun _ _ => True) tryWait (fun r s' =>
      s₁.1.clock ≤ s'.1.clock ∧ s'.1.clock ≤ s₁.1.clock + lag ∧
        r.elim (Started program args group s') fun g => Over program args group g s') s₁ := by
  refine (wp_seq _ _ _ _).mpr ⟨trivial, ?_⟩
  rintro r ⟨s', _⟩ ⟨⟨hm, hr⟩, rfl⟩
  have hfrom : s₁.1.clock ≤ s'.clock := hm.least
  cases r with
  | error e => exact ⟨hfrom, hm.most, fun status hs => (by cases hs), s₁.2, h.spawned, rfl⟩
  | ok status =>
    have hstatus := hr status rfl
    cases status with
    | none => exact ⟨hfrom, hm.most, h.meanwhile hm (.inr rfl)⟩
    | some status =>
      refine ⟨hfrom, hm.most, ?_, s₁.2, h.spawned, rfl⟩
      rintro _ ⟨⟩
      exact hstatus

/-- **Past its deadline (proved)**: once it is killed and reaped it is over, and where it led its group,
so is the group. -/
theorem wp_killed {s₁ : System ι × List (Event sysSig)} (hpast : s.clock + seconds timeout ≤ s₁.1.clock)
    (h : Started program args (!interactive) s₁) :
    wp (systemWorld i lag).traced (fun _ _ => True) (do
      .issue (S := sysSig) (.kill !interactive) .ok
      .issue (S := sysSig) .reap .ok
      .ofExcept (bail (renderCommand program args ++ ": no answer after " ++ dec timeout ++ "s, killed"))
      : SysM (Option Unit)).run (fun r s' => s'.1.clock ≤ s₁.1.clock + 2 * lag ∧
        Streamed interactive program args timeout s s'.2 r s'.1) s₁ := by
  rw [← ends_eta (fun r s' => _ ∧ _), wp_bind]
  refine ⟨trivial, ?_⟩
  rintro _ ⟨s₂, _⟩ ⟨⟨t, ht, rfl⟩, rfl⟩
  show wp _ _ (Fallible.run (_ >>= _)) _ _
  rw [wp_bind]
  refine ⟨trivial, ?_⟩
  rintro _ ⟨s', _⟩ ⟨hm : Meanwhile i 0 lag _ s', rfl⟩
  obtain ⟨c, hc⟩ := Child.stays h.child ht
  have hgoing := hm.child
  rw [hc] at hgoing
  obtain ⟨d, hd, hgoes⟩ := hgoing
  have hfrom := ht.least
  have hto := ht.most
  have hfrom' : t.clock + 0 ≤ s'.clock := hm.least
  have hto' : s'.clock ≤ t.clock + lag := hm.most
  have hover : d.status = some (c.status.getD none) := hgoes.status nofun
  refine ⟨by show s'.clock ≤ _; omega, ?_⟩
  show Streamed _ _ _ _ _ (s₁.2 ++ [_] ++ [_]) _ _
  rw [List.append_assoc]
  refine .killed d h.spawned (by show _ ≤ s'.clock; omega) hd (by rw [hover]; rfl) ?_
  rintro rfl
  exact hgoes.rest nofun rfl

/-- **The loop for a command (proved).** -/
theorem wp_streamWithin (hrounds : 10 * timeout ≤ n) :
    wp (systemWorld i lag).traced (fun _ _ => True)
      (streamWithin interactive program args timeout (n + 1)).run (fun r s' =>
        s'.1.clock ≤ s.clock + seconds timeout + millis 100 + 8 * lag ∧
          Streamed interactive program args timeout s s'.2 r s'.1) (s, []) := by
  have hpaced : Paced (systemWorld i lag).traced (fun _ _ => True) (patience tryWait (millis 100))
      (fun s => s.1.clock) (millis 100) lag lag (fun _ => Started program args (!interactive))
      fun _ => Over program args (!interactive) :=
    paced_patience (fun _ _ _ _ _ _ _ h hm hidle => h.meanwhile hm (.inl hidle)) fun _ _ => wp_tryWait
  have hlimit : seconds timeout ≤ millis 100 * n := by
    unfold seconds millis
    omega
  show wp _ _ (Fallible.run (_ >>= _)) _ _
  rw [← ends_eta (fun r s' => _ ∧ _), wp_bind]
  refine ⟨trivial, ?_⟩
  rintro r ⟨s₁, _⟩ ⟨⟨t, ht, hr⟩, rfl⟩
  have hleast : s.clock + 0 ≤ t.clock := ht.least
  have hmost : t.clock ≤ s.clock + lag := ht.most
  cases r with
  | error e =>
    obtain rfl : s₁ = t := hr
    exact ⟨by show s₁.clock ≤ _; omega, .notRun e ht.child⟩
  | ok u =>
    obtain ⟨c, rfl⟩ := hr
    show wp _ _ (Fallible.run (_ >>= _)) _ _
    rw [wp_bind, wp_lift]
    refine wp_mono (wp_wait hpaced ⟨⟨c, rfl⟩, [], rfl, nofun⟩ hlimit) ?_
    rintro waited ⟨s₂, l⟩ ⟨hend, htime⟩
    replace htime : s₂.clock ≤ t.clock + seconds timeout + millis 100 + lag + 4 * lag := htime
    cases waited with
    | cut => exact hend.elim
    | found g =>
      obtain ⟨-, hchild, l', hspawned, hl⟩ := hend
      obtain rfl : l = l' ++ _ := hl
      have hwithin : s₂.clock ≤ s.clock + seconds timeout + millis 100 + 8 * lag := by omega
      cases g with
      | error e => exact ⟨hwithin, .lost e hspawned⟩
      | ok status =>
        show Ends _ _ ((finishCommand program args status).map some) _
        unfold finishCommand
        split_ifs with hzero
        · subst hzero
          exact ⟨hwithin, .well hspawned (hchild _ rfl)⟩
        · exact ⟨hwithin, .failed status hspawned hzero (hchild _ rfl)⟩
    | late =>
      obtain ⟨⟨-, hstarted⟩, hpast⟩ := hend
      replace hpast : t.clock + seconds timeout ≤ s₂.clock := hpast
      refine wp_mono (wp_killed (s := s) (by show _ ≤ s₂.clock; omega) hstarted) ?_
      rintro r s₄ ⟨hover, hkilled⟩
      replace hover : s₄.1.clock ≤ s₂.clock + 2 * lag := hover
      have hwithin : s₄.1.clock ≤ s.clock + seconds timeout + millis 100 + 8 * lag := by omega
      cases r with
      | ok o => exact ⟨hwithin, hkilled⟩
      | error e => exact ⟨hwithin, hkilled⟩

/-- **A good end is an exit 0 (proved).** -/
theorem Streamed.ok_iff {s' : System ι} {tr : List (Event sysSig)} {r : Except Error (Option Unit)}
    (h : Streamed interactive program args timeout s tr r s') :
    r = .ok (some ()) ↔ tr.getLast? = some ⟨.tryWait, .ok (some (some 0))⟩ := by
  cases h with
  | notRun e => exact ⟨nofun, nofun⟩
  | well => exact ⟨fun _ => List.getLast?_concat, fun _ => rfl⟩
  | failed status _ hne =>
    refine ⟨nofun, fun hlast => absurd ?_ hne⟩
    rw [List.getLast?_concat] at hlast
    simpa using hlast
  | lost e =>
    refine ⟨nofun, fun hlast => ?_⟩
    rw [List.getLast?_concat] at hlast
    simp at hlast
  | killed c =>
    refine ⟨nofun, fun hlast => ?_⟩
    rw [List.append_cons, List.getLast?_concat] at hlast
    simp at hlast

end

/-! ### A slow system -/

/-- Later: from then on the lock is free that another one had, and what was started is over. -/
def System.later (s : System ℕ) (d : ℕ) : System ℕ :=
  let clock := s.clock + d
  if clock < millis 600 then { s with clock }
  else { s with
    clock
    holders := fun path => if s.holders path = some 1 then none else s.holders path
    child := s.child.map fun c => if c.status = none then ⟨some (some 0), 0⟩ else c }

/-- A try for a file that `j` has, or nobody. -/
def System.tried (s : System ℕ) (path : Text) : Option ℕ → Result Bool × System ℕ
  | none => (.ok true, { s with holders := Function.update s.holders path (some 0) })
  | some _ => (.ok false, s)

def slowAnswer (s : System ℕ) : (c : SysCmd) → c.Answer × System ℕ
  | .now => (s.clock, s)
  | .sleep d => ((), s.later d)
  | .createDir _ | .openFile _ => (.ok (), s)
  | .flock path => s.tried path (s.holders path)
  | .execStatus _ _ => (.ok ⟨if s.clock < millis 600 then 1 else 0, [], []⟩, s)
  | .spawn _ _ _ => (.ok (), { s with child := some ⟨none, 0⟩ })
  | .tryWait => (match s.child with
    | some c => .ok c.status
    | none => bail "no child", s)
  | .kill group => ((), { s with child := s.child.map (Child.killed group) })
  | .reap => ((), s)

theorem meanwhile_self {ι : Type} (i : ι) (lag : ℕ) (s : System ι) : Meanwhile i 0 lag s s :=
  ⟨.refl i _, .refl _, le_rfl, Nat.le_add_right _ _⟩

theorem going_later (c : Option Child) :
    Going c (c.map fun c => if c.status = none then ⟨some (some 0), 0⟩ else c) := by
  cases c with
  | none => rfl
  | some c =>
    refine ⟨_, rfl, ?_⟩
    dsimp only
    split_ifs with hrunning
    · exact ⟨fun hover => absurd hrunning hover, fun _ _ => rfl⟩
    · exact .refl c

theorem meanwhile_later (s : System ℕ) (d : ℕ) : Meanwhile 0 d (d + 0) s (s.later d) := by
  unfold System.later
  dsimp only
  by_cases hearly : s.clock + d < millis 600
  · rw [if_pos hearly]
    exact ⟨.refl 0 _, .refl _, le_rfl, le_rfl⟩
  · rw [if_neg hearly]
    refine ⟨fun path => ?_, going_later s.child, le_rfl, le_rfl⟩
    show s.holders path = some 0 ↔ (if s.holders path = some 1 then none else s.holders path) = some 0
    split_ifs with hother
    · rw [hother]
      decide
    · exact Iff.rfl

theorem slowAnswer_effect (s : System ℕ) (c : SysCmd) :
    (systemWorld 0 0).reply s c (slowAnswer s c).1 (slowAnswer s c).2 := by
  have hself := meanwhile_self 0 0 s
  cases c with
  | now => exact ⟨hself, le_rfl, le_rfl⟩
  | sleep d => exact meanwhile_later s d
  | createDir path => exact hself
  | openFile path => exact hself
  | flock path =>
    show SysEffect 0 0 s (.flock path) (s.tried path (s.holders path)).1 (s.tried path (s.holders path)).2
    cases hpath : s.holders path with
    | none => exact ⟨s, hself, hpath, rfl⟩
    | some j => exact ⟨s, hself, ⟨j, hpath⟩, rfl⟩
  | execStatus v script => exact meanwhile_self 0 _ s
  | spawn program args group => exact ⟨s, hself, _, rfl⟩
  | tryWait =>
    refine ⟨hself, fun status hstatus => ?_⟩
    show s.child.map Child.status = some status
    cases hchild : s.child with
    | none => simp [slowAnswer, hchild, bail] at hstatus
    | some c => simpa [slowAnswer, hchild] using hstatus
  | kill group => exact ⟨s, hself, rfl⟩
  | reap => exact hself

/-- Another one holds the lock of the guest 106, and a command runs. -/
def slowSystem : System ℕ where
  clock := 0
  holders path := if path = lockPath 106 then some 1 else none
  child := none

/-- **The loop for a lock is the command (proved).**  With rounds enough for what is waited, however the
others' steps fall between its own: at one moment the locks are as the command `lock`, answered with the
result, leaves them; an error is that of its last call, or comes when the whole wait is over and a try was
refused; and it is all done within the wait, a pause and seven lags. -/
theorem take_is_lock {ι : Type} [DecidableEq ι] {i : ι} {vmid waitSecs n lag : ℕ} {s s' : System ι}
    {tr : List (Event sysSig)} {r : Except Error (Option Unit)} (hrounds : 4 * waitSecs ≤ n)
    (h : Run (systemWorld i lag) s (GuestLock.take vmid waitSecs (n + 1)).run tr r s') :
    ∃ answer : Result Unit, r = answer.map some ∧
      (∃ t, Elsewhere i s.holders t ∧
        hostLocking.Does i (byGuest t) (.lock vmid waitSecs) answer (byGuest s'.holders)) ∧
      s'.clock ≤ s.clock + seconds waitSecs + millis 250 + 7 * lag ∧
      ∀ e, answer = .error e → FailedLast vmid tr e ∨
        e = busy vmid ∧ s.clock + seconds waitSecs ≤ s'.clock ∧
          ⟨.flock (lockPath vmid), .ok false⟩ ∈ tr := by
  have hend := wp_run (wp_take hrounds) (run_traced (l := []) h)
  cases r with
  | ok o =>
    obtain ⟨rfl, ⟨t, ht, hfree, hheld⟩, htime⟩ := hend
    refine ⟨.ok (), rfl, ⟨t, ht, .inl ⟨rfl, hfree, ?_⟩⟩, htime, nofun⟩
    rw [show s'.holders = _ from hheld]
    exact byGuest_update _ _ _
  | error e =>
    obtain ⟨ht, htime, hwhy⟩ := hend
    refine ⟨.error e, rfl, ⟨s'.holders, ht, .inr ⟨rfl, rfl⟩⟩, htime, ?_⟩
    rintro _ ⟨⟩
    exact hwhy

theorem take_is_lock_slow : ∃ t, Elsewhere 0 slowSystem.holders t ∧ hostLocking.Does 0 (byGuest t)
    (.lock 106 1) (.ok ())
    (byGuest ((GuestLock.take 106 1 5).run.interpret slowAnswer slowSystem).2.holders) := by
  have hrun := run_trace slowAnswer_effect (GuestLock.take 106 1 5).run slowSystem
  have hok : ((GuestLock.take 106 1 5).run.interpret slowAnswer slowSystem).1.isOk = true := by
    decide +kernel
  obtain ⟨answer, hanswer, hlock, -⟩ := take_is_lock (by decide) hrun
  cases answer with
  | error e =>
    rw [hanswer] at hok
    cases hok
  | ok u => exact hlock

/-- **A guest is ready, or given up in time (proved)**: `wait_ready` ends well after the first probe that
was answered so, and fails only when the wait is over and every probe of at least one was not; a probe
that hangs is killed, so all is done within the wait, a pause and a probe. -/
theorem wait_ready_in_time {ι : Type} {i : ι} {vmid secs n lag : ℕ} {s s' : System ι}
    {tr : List (Event sysSig)} {r : Except Error (Option Unit)} (hrounds : secs ≤ 2 * n)
    (h : Run (systemWorld i lag) s (waitReady vmid secs (n + 1)).run tr r s') :
    s'.clock ≤ s.clock + seconds (secs + 2 + TIMEOUT) + 5 * lag ∧
      (r = .ok (some ()) ∧ (∃ k, Answered (k + 1) tr) ∨
        r = .error (notReady vmid secs) ∧ s.clock + seconds secs ≤ s'.clock ∧ ∃ k, Probed (k + 1) tr) := by
  obtain ⟨htime, hend⟩ := wp_run (wp_waitReady hrounds) (run_traced (l := []) h)
  refine ⟨htime, ?_⟩
  cases r with
  | ok o =>
    obtain ⟨rfl, hanswered⟩ := hend
    exact .inl ⟨rfl, hanswered⟩
  | error e =>
    obtain ⟨rfl, hpast, hprobed⟩ := hend
    exact .inr ⟨rfl, hpast, hprobed⟩

/-- **A command that was streamed is over when its result is there (proved)**: it ends well with exit 0
and with nothing else, fails with any other, and is killed when its time is over and not before, with the
whole of its group where there is no terminal; all within its time, a pause and eight lags.  Only where
the system cannot say how it stands may it go on. -/
theorem stream_in_time {ι : Type} {i : ι} {interactive : Bool} {program : Text} {args : List Text}
    {timeout n lag : ℕ} {s s' : System ι} {tr : List (Event sysSig)} {r : Except Error (Option Unit)}
    (hrounds : 10 * timeout ≤ n)
    (h : Run (systemWorld i lag) s (streamWithin interactive program args timeout (n + 1)).run tr r s') :
    s'.clock ≤ s.clock + seconds timeout + millis 100 + 8 * lag ∧
      Streamed interactive program args timeout s tr r s' ∧
      (r = .ok (some ()) ↔ tr.getLast? = some ⟨.tryWait, .ok (some (some 0))⟩) := by
  obtain ⟨htime, hend⟩ := wp_run (wp_streamWithin hrounds) (run_traced (l := []) h)
  exact ⟨htime, hend, hend.ok_iff⟩

theorem stream_in_time_slow : Streamed false "pct" ["exec"] 1 slowSystem
    ((streamWithin false "pct" ["exec"] 1 11).run.trace slowAnswer slowSystem) (.ok (some ()))
    ((streamWithin false "pct" ["exec"] 1 11).run.interpret slowAnswer slowSystem).2 := by
  have hrun := run_trace slowAnswer_effect (streamWithin false "pct" ["exec"] 1 11).run slowSystem
  have hok : ((streamWithin false "pct" ["exec"] 1 11).run.interpret slowAnswer slowSystem).1
      = .ok (some ()) := by decide +kernel
  obtain ⟨-, hstreamed, -⟩ := stream_in_time (by decide) hrun
  rw [← hok]
  exact hstreamed

end PveCompose
