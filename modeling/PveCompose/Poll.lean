import PveCompose.Attempts

/-!
# The loop loses no document change (`ops/daemon.rs`)

The store as the loop polls it, while others write documents and the config file between any two of
its commands.  The token of a write is one the store never had.

* `Between` — what holds between two polls, the invariant of the loop;
* `wp_visit_passing` / `wp_iteration_between` — one guest and one turn keep it;
* `no_change_lost` — **PROVED**: while the token is the one remembered, the trace of the loop attempts
  every guest of the last pass for the document it has now, and it is remembered with it unless a
  changed config was re-read since;
* `memo_dropped` — a config changed between the re-read of a turn and the pass of that turn drops
  the memo at the next poll, though the file has not changed since the pass.
-/

namespace PveCompose

open Programs

/-- The store and the config file, with what the loop has seen of them. -/
structure Store where
  docs : ℕ → Option Text
  token : Text
  file : FileRead
  /-- Every token so far. -/
  used : List Text
  /-- The config the loop last read. -/
  config : Config
  /-- What the last pass's list answered. -/
  listed : Option (Result (List Listed))
  /-- What the document reads of the last pass gave, the latest first. -/
  answered : List (ℕ × Result (Option Read))
  /-- The file has not changed since that pass began. -/
  unchanged : Bool
  /-- A config other than the one in use was read since that pass began. -/
  noticed : Bool

namespace Store

/-- A document is written or removed, and the store's token moves. -/
def write (s : Store) (vmid : ℕ) (doc : Option Text) (token : Text) : Store :=
  { s with docs := Function.update s.docs vmid doc, token, used := token :: s.used }

def setFile (s : Store) (file : FileRead) : Store := { s with file, unchanged := false }

/-- The loop reads a config. -/
def readConfig (s : Store) : Result Config → Store
  | .ok c => { s with config := c, noticed := s.noticed || c ≠ s.config }
  | .error _ => s

/-- A pass begins. -/
def beginPass (s : Store) (r : Result (List Listed)) : Store :=
  { s with listed := some r, answered := [], unchanged := true, noticed := false }

/-- A document is read. -/
def answer (s : Store) (vmid : ℕ) (r : Result (Option Read)) : Store :=
  { s with answered := (vmid, r) :: s.answered }

end Store

variable (x : External)

/-- What a command of the loop sees and leaves. -/
def Serve (s : Store) : (c : Cmd) → c.Answer → Store → Prop
  | .version, r, s' => s' = s ∧ ∀ t, r = .ok t → t.getD [] = s.token
  | .loadConfig, r, s' => (r = s.file ∨ ∃ e, r = .failed e) ∧
      s' = s.readConfig (Config.load x.configFromYaml r)
  | .list _, r, s' => s' = s.beginPass r
  | .metaGet v, r, s' => (∀ out, r = .ok out →
      (out.status = 0 → s.docs v = some out.stdout) ∧ (out.status = 2 → s.docs v = none)) ∧
      s' = s.answer v (r >>= readOutput x v)
  | _, _, s' => s' = s

/-- One step of anybody else. -/
inductive Outside : Store → Store → Prop where
  | write {s : Store} (vmid : ℕ) (doc : Option Text) {token : Text} :
      token ∉ s.used → Outside s (s.write vmid doc token)
  | file {s : Store} (file : FileRead) : Outside s (s.setFile file)

/-- The others may take any steps before each command of the loop. -/
def storeWorld : World sig Store :=
  ⟨fun s c r s' => ∃ s₁, Relation.ReflTransGen Outside s s₁ ∧ Serve x s₁ c r s'⟩

/-- The loop has just been started. -/
structure Store.Started (ctx : Ctx) (s : Store) : Prop where
  token : s.token ∈ s.used
  config : s.config = ctx.config
  listed : s.listed = none

/-! ### What moves on -/

/-- From `s` to `s'` the loop has only attempted, and the documents are as they were unless the token
is a new one. -/
structure Onward (s s' : Store) : Prop where
  used : s.used ⊆ s'.used
  token : s.token ∈ s.used → s'.token ∈ s'.used
  docs : s'.token ∈ s.used → s'.token = s.token ∧ s'.docs = s.docs
  config : s'.config = s.config
  listed : s'.listed = s.listed
  answered : s'.answered = s.answered
  noticed : s'.noticed = s.noticed

theorem Onward.refl (s : Store) : Onward s s :=
  ⟨fun _ h => h, id, fun _ => ⟨rfl, rfl⟩, rfl, rfl, rfl, rfl⟩

theorem Onward.trans {s₁ s₂ s₃ : Store} (h : Onward s₁ s₂) (h' : Onward s₂ s₃) : Onward s₁ s₃ where
  used := List.Subset.trans h.used h'.used
  token ht := h'.token (h.token ht)
  docs ht := by
    obtain ⟨htoken, hdocs⟩ := h'.docs (h.used ht)
    rw [htoken] at ht
    obtain ⟨htoken', hdocs'⟩ := h.docs ht
    exact ⟨htoken.trans htoken', hdocs.trans hdocs'⟩
  config := h'.config.trans h.config
  listed := h'.listed.trans h.listed
  answered := h'.answered.trans h.answered
  noticed := h'.noticed.trans h.noticed

theorem Outside.onward {s s' : Store} (h : Outside s s') : Onward s s' := by
  cases h with
  | write vmid doc hnew =>
    exact ⟨fun _ h => List.mem_cons_of_mem _ h, fun _ => List.mem_cons_self, fun h => absurd h hnew,
      rfl, rfl, rfl, rfl⟩
  | file f => exact ⟨fun _ h => h, id, fun _ => ⟨rfl, rfl⟩, rfl, rfl, rfl, rfl⟩

theorem onward_of_outside {s s' : Store} (h : Relation.ReflTransGen Outside s s') : Onward s s' := by
  induction h with
  | refl => exact Onward.refl s
  | tail _ hstep ih => exact ih.trans hstep.onward

/-- The commands of the loop that tell it nothing of the store. -/
def Cmd.Silent : Cmd → Prop
  | .version | .loadConfig | .list _ | .metaGet _ => False
  | _ => True

theorem Cmd.OfAttempt.silent {c : Cmd} (h : c.OfAttempt) : c.Silent := by
  cases c with
  | version => exact h.elim
  | loadConfig => exact h.elim
  | list _ => exact h.elim
  | metaGet _ => exact h.elim
  | _ => trivial

/-- The store, with the trace of the loop so far. -/
abbrev Seen := Store × List (Event sig)

/-- The loop has only attempted, and its trace has grown. -/
structure Later (s s' : Seen) : Prop where
  store : Onward s.1 s'.1
  trace : s.2 <+: s'.2

theorem Later.trans {s₁ s₂ s₃ : Seen} (h : Later s₁ s₂) (h' : Later s₂ s₃) : Later s₁ s₃ :=
  ⟨h.store.trans h'.store, h.trace.trans h'.trace⟩

theorem later_of_outside {s : Seen} {s₁ : Store} {e : Event sig}
    (h : Relation.ReflTransGen Outside s.1 s₁) : Later s (s₁, s.2 ++ [e]) :=
  ⟨onward_of_outside h, List.prefix_append _ _⟩

variable {x : External}

theorem onward_of_silent {s s' : Store} {c : Cmd} {r : c.Answer} (hc : c.Silent)
    (h : (storeWorld x).reply s c r s') : Onward s s' := by
  obtain ⟨s₁, hout, hserve⟩ := h
  refine (onward_of_outside hout).trans ?_
  cases c with
  | version => exact hc.elim
  | loadConfig => exact hc.elim
  | list _ => exact hc.elim
  | metaGet _ => exact hc.elim
  | _ => exact (show s' = s₁ from hserve) ▸ Onward.refl s₁

/-- Nothing is asked of the commands: what is shown is about the ends. -/
abbrev Free {σ : Type} : σ → Cmd → Prop := fun _ _ => True

variable {s s' : Seen}

theorem wp_silent {α : Type} {p : Prog sig α} (h : Only Cmd.Silent p) :
    wp (storeWorld x).traced Free p
      (fun a s' => Later s s' ∧ ∃ tr, s'.2 = s.2 ++ tr ∧ Yields p tr a) s := by
  have hstore : wp (storeWorld x) Free p (fun _ s' => Onward s.1 s') s.1 :=
    wp_only h (fun _ _ _ _ hc h₁ hr => h₁.trans (onward_of_silent hc hr)) (fun _ _ _ _ => trivial)
      (Onward.refl s.1)
  refine wp_mono (wp_traced hstore) ?_
  rintro a s' ⟨ho, tr, htr, hy⟩
  exact ⟨⟨ho, tr, htr.symm⟩, tr, htr, hy⟩

theorem wp_ask_silent {c : Cmd} (h : c.Silent) :
    wp (storeWorld x).traced Free (Prog.ask (S := sig) c) (fun _ s' => Later s s') s :=
  wp_mono (wp_silent ⟨h, fun _ => trivial⟩) fun _ _ h => h.1

theorem wp_say {msg : Text} : wp (storeWorld x).traced Free (say msg) (fun _ s' => Later s s') s :=
  wp_ask_silent trivial

theorem wp_watchdog : wp (storeWorld x).traced Free watchdog (fun _ s' => Later s s') s :=
  wp_ask_silent trivial

/-! ### One guest -/

/-- The last pass found the document the guest has, which the trace attempts and which is
remembered. -/
structure Handled (x : External) (ctx : Ctx) (memo : Memo) (s : Seen) (v : ℕ) : Prop where
  found : ∃ a, (v, .ok a) ∈ s.1.answered ∧ a.map Read.text = s.1.docs v
  attempted : ∀ text, s.1.docs v = some text → ∃ config read,
    (s.1.noticed = false → config = ctx.config) ∧ read.text = text ∧
      AttemptedFor x { ctx with config } v read s.2
  memo : s.1.noticed = false → ∀ text, s.1.docs v = some text →
    Assoc.get? v memo = some (x.digest text)

/-- No document read of the last pass failed. -/
def Store.ReadAll (s : Store) : Prop := ∀ v e, (v, .error e) ∉ s.answered

/-- The guest is handled, if the store's token is still `token`. -/
def HandledAt (x : External) (ctx : Ctx) (token : Text) (memo : Memo) (s : Seen) (v : ℕ) : Prop :=
  s.1.token = token → s.1.ReadAll → Handled x ctx memo s v

variable {ctx : Ctx} {token : Text} {ls done : List Listed} {memo : Memo}

theorem Handled.later {v : ℕ} (h : Handled x ctx memo s v) (ho : Later s s')
    (hdocs : s'.1.docs = s.1.docs) : Handled x ctx memo s' v where
  found := by
    rw [ho.store.answered, hdocs]
    exact h.found
  attempted := by
    rw [hdocs, ho.store.noticed]
    intro text ht
    obtain ⟨config, read, hconfig, htext, hatt⟩ := h.attempted text ht
    exact ⟨config, read, hconfig, htext, hatt.append ho.trace.isInfix⟩
  memo := by
    rw [ho.store.noticed, hdocs]
    exact h.memo

theorem HandledAt.later {v : ℕ} (h : HandledAt x ctx token memo s v) (htoken : token ∈ s.1.used)
    (ho : Later s s') : HandledAt x ctx token memo s' v := by
  intro ht hreads
  obtain ⟨heq, hdocs⟩ := ho.store.docs (ht ▸ htoken)
  refine (h (heq ▸ ht) ?_).later ho hdocs
  intro v e
  rw [← ho.store.answered]
  exact hreads v e

/-- Inside a pass: the guests of `done` are handled, if the token is still the one polled. -/
structure Passing (x : External) (ctx : Ctx) (token : Text) (ls done : List Listed) (memo : Memo)
    (s : Seen) : Prop where
  current : s.1.token ∈ s.1.used
  polled : token ∈ s.1.used
  config : s.1.config = ctx.config
  listed : s.1.listed = some (.ok ls)
  recalls : Recalls x ctx memo s.2
  handled : ∀ g ∈ done, g.Reached ctx → HandledAt x ctx token memo s g.vmid

theorem Passing.later (h : Passing x ctx token ls done memo s) (ho : Later s s') :
    Passing x ctx token ls done memo s' where
  current := ho.store.token h.current
  polled := ho.store.used h.polled
  config := ho.store.config.trans h.config
  listed := ho.store.listed.trans h.listed
  recalls := h.recalls.append ho.trace.isInfix
  handled g hg hr := (h.handled g hg hr).later h.polled ho

/-- A document is read: what was handled stays so. -/
theorem Passing.answer (h : Passing x ctx token ls done memo s) (v : ℕ)
    (r : Result (Option Read)) : Passing x ctx token ls done memo (s.1.answer v r, s.2) where
  current := h.current
  polled := h.polled
  config := h.config
  listed := h.listed
  recalls := h.recalls
  handled g hg hreached ht hreads := by
    have hh := h.handled g hg hreached ht fun v e hm => hreads v e (List.mem_cons_of_mem _ hm)
    obtain ⟨a, ha, htext⟩ := hh.found
    exact ⟨⟨a, List.mem_cons_of_mem _ ha, htext⟩, hh.attempted, hh.memo⟩

/-- The next guest is handled, or the pass does not look at it. -/
theorem Passing.next (h : Passing x ctx token ls done memo s) {g : Listed}
    (hg : g.Reached ctx → HandledAt x ctx token memo s g.vmid) :
    Passing x ctx token ls (done ++ [g]) memo s where
  current := h.current
  polled := h.polled
  config := h.config
  listed := h.listed
  recalls := h.recalls
  handled g' hg' hreached := by
    rcases List.mem_append.mp hg' with hd | hl
    · exact h.handled g' hd hreached
    · obtain rfl := List.mem_singleton.mp hl
      exact hg hreached

/-- The guest's document is remembered, once it has been attempted. -/
theorem Passing.remember (h : Passing x ctx token ls done memo s) {g : Listed} {read : Read}
    (hatt : AttemptedFor x ctx g.vmid read s.2) (hfound : (g.vmid, .ok (some read)) ∈ s.1.answered)
    (hdocs : s.1.token = token → s.1.docs g.vmid = some read.text) :
    Passing x ctx token ls (done ++ [g]) (Assoc.set g.vmid read.digest memo) s := by
  have hself : HandledAt x ctx token (Assoc.set g.vmid read.digest memo) s g.vmid := by
    intro ht _
    refine ⟨⟨some read, hfound, (hdocs ht).symm⟩, fun text htext => ?_, fun _ text htext => ?_⟩
    · rw [hdocs ht] at htext
      exact ⟨ctx.config, read, fun _ => rfl, Option.some.inj htext, hatt⟩
    · rw [hdocs ht] at htext
      rw [Assoc.get?_set, if_pos rfl, hatt.digest, Option.some.inj htext]
  refine Passing.next ⟨h.current, h.polled, h.config, h.listed, fun v d hd => ?_, fun g' hg' hr => ?_⟩
    fun _ => hself
  · rw [Assoc.get?_set] at hd
    split_ifs at hd with hv
    · subst hv
      exact ⟨read, Option.some.inj hd, hatt⟩
    · exact h.recalls v d hd
  · by_cases hv : g'.vmid = g.vmid
    · rw [hv]
      exact hself
    · intro ht hreads
      have hh := h.handled g' hg' hr ht hreads
      refine ⟨hh.found, hh.attempted, fun hn text htext => ?_⟩
      rw [Assoc.get?_set, if_neg hv]
      exact hh.memo hn text htext

theorem status_of_readOutput_none {vmid : ℕ} {out : Output} (h : readOutput x vmid out = .ok none) :
    out.status = 2 := by
  unfold readOutput at h
  split_ifs at h with h0 h2
  · obtain ⟨doc, -, h⟩ := bind_eq_ok.mp h
    cases h
  · exact h2
  · exact absurd h bail_ne_ok

/-- A guest without a document has nothing to be attempted for. -/
theorem handled_bare {v : ℕ} (hfound : (v, .ok none) ∈ s.1.answered) (hdocs : s.1.docs v = none) :
    Handled x ctx memo s v where
  found := ⟨none, hfound, hdocs.symm⟩
  attempted text htext := by cases hdocs.symm.trans htext
  memo _ text htext := by cases hdocs.symm.trans htext

/-- A guest whose digest is remembered was attempted for this very document: digests differ where
documents do. -/
theorem handled_remembered (hinj : Function.Injective x.digest) {v : ℕ} {read : Read}
    (hrecalls : Recalls x ctx memo s.2) (hmemo : Assoc.get? v memo = some read.digest)
    (hdigest : read.digest = x.digest read.text) (hfound : (v, .ok (some read)) ∈ s.1.answered)
    (hdocs : s.1.docs v = some read.text) : Handled x ctx memo s v := by
  obtain ⟨read', hsame, hatt⟩ := hrecalls _ _ hmemo
  have htext : read'.text = read.text := hinj (hatt.digest.symm.trans (hsame.trans hdigest))
  refine ⟨⟨some read, hfound, hdocs.symm⟩, fun text hnow => ?_, fun _ text hnow => ?_⟩
  · have hcurrent := Option.some.inj (hdocs.symm.trans hnow)
    exact ⟨ctx.config, read', fun _ => rfl, htext.trans hcurrent, hatt⟩
  · rw [hmemo, hdigest, Option.some.inj (hdocs.symm.trans hnow)]

/-- An attempt, whatever it comes to, said and followed by the ping. -/
theorem wp_tried {g : Listed} {read : Read} {a : Result Output} {before : List (Event sig)}
    (h : Passing x ctx token ls done memo s) (ha : (a >>= readOutput x g.vmid) = .ok (some read))
    (htr : s.2 = before ++ [⟨.metaGet g.vmid, a⟩])
    (hfound : (g.vmid, .ok (some read)) ∈ s.1.answered) (hdocs : s.1.docs g.vmid = some read.text) :
    wp (storeWorld x).traced Free (do
      match ← (attempt x ctx g.vmid read).run with
      | .error e => say (dec g.vmid ++ ": " ++ e.display)
      | .ok _ => pure ()
      watchdog
      pure (Assoc.set g.vmid read.digest memo) : Prog sig Memo)
      (Passing x ctx token ls (done ++ [g])) s := by
  rw [wp_seq]
  have honly := only_mono (only_attemptGuest x ctx g.vmid read) fun _ => Cmd.OfAttempt.silent
  refine wp_mono (wp_silent honly) ?_
  rintro r s₃ ⟨h₃, part, hpart, hyields⟩
  have hatt : AttemptedFor x ctx g.vmid read s₃.2 := by
    refine ⟨a, part, r, ha, hyields, before, [], ?_⟩
    rw [hpart, htr, List.append_nil, ← List.append_cons]
  have hend : ∀ s₄, Later s₃ s₄ →
      Passing x ctx token ls (done ++ [g]) (Assoc.set g.vmid read.digest memo) s₄ := by
    intro s₄ h₄
    have ho := h₃.trans h₄
    refine (h.later ho).remember (hatt.append h₄.trace.isInfix) ?_ fun ht => ?_
    · rw [ho.store.answered]
      exact hfound
    · rw [(ho.store.docs (ht ▸ h.polled)).2]
      exact hdocs
  cases r with
  | error e =>
    dsimp only
    rw [wp_seq]
    refine wp_mono wp_say fun _ s₄ h₄ => ?_
    rw [wp_seq]
    exact wp_mono wp_watchdog fun _ s₅ h₅ => hend s₅ (h₄.trans h₅)
  | ok u =>
    dsimp only
    rw [wp_seq]
    exact wp_mono wp_watchdog fun _ s₅ h₅ => hend s₅ h₅

/-- **One guest (proved).** -/
theorem wp_visit_passing (hinj : Function.Injective x.digest) {g : Listed}
    (h : Passing x ctx token ls done memo s) :
    wp (storeWorld x).traced Free (visit x ctx memo g) (Passing x ctx token ls (done ++ [g])) s := by
  unfold visit
  split_ifs with hskip
  · refine h.next fun hreached => ?_
    obtain ⟨htemplate, hrunning, hselected⟩ := hreached
    exact absurd hskip (by simp [htemplate, hrunning, hselected])
  rw [wp_seq]
  refine ⟨trivial, fun r s₁ hr => ?_⟩
  obtain ⟨store₁, tr₁⟩ := s₁
  obtain ⟨⟨s₂, hout, hserve, rfl⟩, rfl⟩ := hr
  have hlater : Later s (s₂, s.2 ++ [⟨.metaGet g.vmid, r⟩]) := later_of_outside hout
  have h₂ := (h.later hlater).answer g.vmid (r >>= readOutput x g.vmid)
  show wp _ _ (.ret (r >>= readOutput x g.vmid)) _ (s₂.answer g.vmid (r >>= readOutput x g.vmid), _)
  rw [wp_ret]
  generalize ha : (r >>= readOutput x g.vmid) = a at h₂ ⊢
  cases a with
  | error e =>
    dsimp only
    rw [wp_seq]
    refine wp_mono wp_say fun _ s₃ h₃ => (h₂.later h₃).next fun _ ht hreads => ?_
    refine absurd ?_ (hreads g.vmid e)
    rw [h₃.store.answered]
    exact List.mem_cons_self
  | ok found =>
    obtain ⟨out, rfl, hout⟩ := bind_eq_ok.mp ha
    obtain ⟨hsome, hnone⟩ := hserve out rfl
    cases found with
    | none =>
      have hdocs := hnone (status_of_readOutput_none hout)
      exact h₂.next fun _ _ _ => handled_bare List.mem_cons_self hdocs
    | some read =>
      have hd := decoded_of_readOutput hout
      have hdocs : s₂.docs g.vmid = some read.text := hd.text ▸ hsome hd.status
      dsimp only
      split_ifs with hmemo
      · exact h₂.next fun _ _ _ =>
          handled_remembered hinj h₂.recalls hmemo hd.digest List.mem_cons_self hdocs
      · exact wp_tried h₂ ha rfl List.mem_cons_self hdocs

theorem wp_visitAll_passing (hinj : Function.Injective x.digest) {rest : List Listed}
    (h : Passing x ctx token ls done memo s) :
    wp (storeWorld x).traced Free (visitAll x ctx memo rest)
      (Passing x ctx token ls (done ++ rest)) s := by
  induction rest generalizing done memo s with
  | nil =>
    rw [List.append_nil]
    exact h
  | cons g rest ih =>
    rw [visitAll, wp_seq, List.append_cons]
    exact wp_mono (wp_visit_passing hinj h) fun memo' s' h' => ih h'

/-! ### One turn -/

variable {l : LoopCtx} {st : LoopState}

/-- Before the pass of a turn: what is remembered was attempted, and the config in use is the one last
read. -/
structure Polling (x : External) (l : LoopCtx) (st : LoopState) (s : Seen) : Prop where
  current : s.1.token ∈ s.1.used
  config : s.1.config = st.config
  recalls : Recalls x (l.ctx st.config) st.memo s.2

/-- **Between two polls**: every guest of the last pass is handled, if the token is still the one
remembered. -/
structure Between (x : External) (l : LoopCtx) (st : LoopState) (s : Seen) : Prop
    extends Polling x l st s where
  handled : ∀ ls, s.1.listed = some (.ok ls) → st.lastToken ∈ s.1.used ∧
    ∀ g ∈ ls, g.Reached (l.ctx st.config) →
      HandledAt x (l.ctx st.config) st.lastToken st.memo s g.vmid

theorem Polling.later (h : Polling x l st s) (ho : Later s s') : Polling x l st s' :=
  ⟨ho.store.token h.current, ho.store.config.trans h.config, h.recalls.append ho.trace.isInfix⟩

theorem Between.later (h : Between x l st s) (ho : Later s s') : Between x l st s' where
  toPolling := h.toPolling.later ho
  handled ls hls := by
    obtain ⟨hused, hall⟩ := h.handled ls (ho.store.listed ▸ hls)
    exact ⟨ho.store.used hused, fun g hg hr => (hall g hg hr).later hused ho⟩

/-- A changed config drops the memo: what was attempted stays so. -/
theorem Between.noticed (h : Between x l st s) (c : Config) (hc : c ≠ st.config) :
    Between x l { st with config := c, memo := [] } (s.1.readConfig (.ok c), s.2) where
  current := h.current
  config := rfl
  recalls := nofun
  handled ls hls := by
    obtain ⟨hused, hall⟩ := h.handled ls hls
    refine ⟨hused, fun g hg hr ht hreads => ?_⟩
    have hh := hall g hg hr ht hreads
    have hnot : (s.1.readConfig (.ok c)).noticed ≠ false := by
      have hne : c ≠ s.1.config := h.config ▸ hc
      simp [Store.readConfig, hne]
    refine ⟨hh.found, fun text htext => ?_, fun hn => absurd hn hnot⟩
    obtain ⟨config, read, -, hread, hatt⟩ := hh.attempted text htext
    exact ⟨config, read, fun hn => absurd hn hnot, hread, hatt⟩

theorem wp_reload_between {r : FileRead} (h : Between x l st s) (hpolled : token ∈ s.1.used) :
    wp (storeWorld x).traced Free (reload x st r)
      (fun st' s' => Between x l st' s' ∧ token ∈ s'.1.used)
      (s.1.readConfig (Config.load x.configFromYaml r), s.2) := by
  unfold reload
  cases hc : Config.load x.configFromYaml r with
  | error e =>
    dsimp only
    rw [wp_seq]
    exact wp_mono wp_say fun _ s' ho => ⟨h.later ho, ho.store.used hpolled⟩
  | ok c =>
    dsimp only
    split_ifs with hne
    · rw [wp_seq]
      exact wp_mono wp_say fun _ s' ho => ⟨(h.noticed c hne).later ho, ho.store.used hpolled⟩
    · obtain rfl := not_not.mp hne
      have hsame : s.1.readConfig (.ok st.config) = s.1 := by
        rw [Store.readConfig, ← h.config]
        simp
      rw [hsame]
      exact ⟨h, hpolled⟩

theorem wp_startFull_polling {full : Bool} (h : Polling x l st s) (hpolled : token ∈ s.1.used) :
    wp (storeWorld x).traced Free (startFull st full)
      (fun st' s' => Polling x l st' s' ∧ token ∈ s'.1.used) s := by
  unfold startFull
  split_ifs
  · rw [wp_seq]
    refine wp_mono (wp_ask_silent (c := .now) trivial) fun _ s' ho => ?_
    exact ⟨⟨ho.store.token h.current, ho.store.config.trans h.config, nofun⟩, ho.store.used hpolled⟩
  · exact ⟨h, hpolled⟩

theorem wp_passTurn_between (hinj : Function.Injective x.digest) (h : Polling x l st s)
    (hpolled : token ∈ s.1.used) :
    wp (storeWorld x).traced Free (passTurn x l st token) (Between x l) s := by
  rw [passTurn, wp_seq, pass, wp_seq, wp_ask]
  refine ⟨trivial, fun r s₁ hr => ?_⟩
  obtain ⟨store₁, tr₁⟩ := s₁
  obtain ⟨⟨s₂, hout, rfl⟩, rfl⟩ := hr
  have ho : Later s (s₂, s.2 ++ [⟨.list (l.ctx st.config).node, r⟩]) := later_of_outside hout
  have h₂ := h.later ho
  cases r with
  | error e =>
    show wp _ _ (say _ >>= _) _ _
    rw [wp_seq]
    refine wp_mono wp_say fun _ s₃ h₃ => ?_
    refine ⟨⟨h₃.store.token h₂.current, h₃.store.config.trans h₂.config,
      h₂.recalls.append h₃.trace.isInfix⟩, fun ls hls => ?_⟩
    rw [h₃.store.listed] at hls
    exact absurd hls nofun
  | ok ls =>
    show wp _ _ (visitAll x _ _ ls >>= _) _ _
    rw [wp_seq]
    have hstart : Passing x (l.ctx st.config) token ls [] st.memo
        (s₂.beginPass (.ok ls), s.2 ++ [⟨.list (l.ctx st.config).node, .ok ls⟩]) :=
      ⟨h₂.current, ho.store.used hpolled, h₂.config, rfl, h₂.recalls, nofun⟩
    refine wp_mono (wp_visitAll_passing hinj hstart) fun memo s₃ h₃ => ?_
    refine ⟨⟨h₃.current, h₃.config, h₃.recalls⟩, fun ls' hls' => ⟨h₃.polled, fun g hg hr => ?_⟩⟩
    obtain rfl : ls = ls' := Except.ok.inj (Option.some.inj (h₃.listed.symm.trans hls'))
    exact h₃.handled g hg hr

/-- **One turn (proved).** -/
theorem wp_iteration_between (hinj : Function.Injective x.digest) (h : Between x l st s) :
    wp (storeWorld x).traced Free (iteration x l st) (Between x l) s := by
  have hsleep : ∀ (st : LoopState) (s : Seen), Between x l st s →
      wp (storeWorld x).traced Free (do
        Prog.ask (S := sig) (.sleep l.interval)
        pure st) (Between x l) s := by
    intro st s h
    rw [wp_seq]
    exact wp_mono (wp_ask_silent (c := .sleep l.interval) trivial) fun _ s' ho => h.later ho
  rw [iteration, wp_seq]
  refine wp_mono wp_watchdog fun _ s₁ h₁ => ?_
  rw [wp_seq, wp_ask]
  refine ⟨trivial, fun r s₂ hr => ?_⟩
  obtain ⟨store₂, tr₂⟩ := s₂
  obtain ⟨⟨s₃, hout, rfl, hpoll⟩, rfl⟩ := hr
  have h₂ := h.later (h₁.trans (later_of_outside (e := ⟨.version, r⟩) hout))
  cases r with
  | error e =>
    dsimp only
    rw [wp_seq]
    exact wp_mono wp_say fun _ s₄ h₄ => hsleep st s₄ (h₂.later h₄)
  | ok answer =>
    dsimp only
    rw [wp_seq]
    refine wp_mono (wp_ask_silent (c := .now) trivial) fun now s₄ h₄ => ?_
    have hpolled : answer.getD [] ∈ s₄.1.used := h₄.store.used (hpoll answer rfl ▸ h₂.current)
    rw [wp_seq, wp_ask]
    refine ⟨trivial, fun file s₅ hr => ?_⟩
    obtain ⟨store₅, tr₅⟩ := s₅
    obtain ⟨⟨s₆, hout, -, rfl⟩, rfl⟩ := hr
    have ho : Later s₄ (s₆, s₄.2 ++ [⟨.loadConfig, file⟩]) := later_of_outside hout
    rw [wp_seq]
    refine wp_mono (wp_reload_between ((h₂.later h₄).later ho) (ho.store.used hpolled))
      fun st' s₇ h₇ => ?_
    split_ifs
    · rw [wp_seq]
      refine wp_mono (wp_startFull_polling h₇.1.toPolling h₇.2) fun st'' s₈ h₈ => ?_
      rw [wp_seq]
      exact wp_mono (wp_passTurn_between hinj h₈.1 h₈.2) hsleep
    · exact hsleep st' s₇ h₇.1

/-! ### Every run of the loop -/

theorem wp_turns_between (hinj : Function.Injective x.digest) {n : ℕ} (h : Between x l st s) :
    wp (storeWorld x).traced Free (turns x l n st) (Between x l) s := by
  induction n generalizing st s with
  | zero => exact h
  | succ n ih =>
    rw [turns, wp_seq]
    exact wp_mono (wp_iteration_between hinj h) fun st' s' h' => ih h'

theorem wp_runLoop_between (hinj : Function.Injective x.digest) {n : ℕ} (h : s.1.Started ctx) :
    wp (storeWorld x).traced Free (runLoop x ctx n)
      (fun r s' => Between x r.1 r.2 s' ∧ r.1.tag = ctx.tag) s := by
  have hstart : Only Cmd.Silent (startLoop ctx) := by
    refine only_bindProg ⟨trivial, fun _ => trivial⟩ fun t => ?_
    refine only_bindProg ⟨trivial, fun _ => trivial⟩ fun _ => ?_
    exact only_bindProg ⟨trivial, fun _ => trivial⟩ fun _ => trivial
  have hends : wp (storeWorld x).traced Free (startLoop ctx) (fun r _ => r.1.tag = ctx.tag ∧
      r.2.config = ctx.config ∧ r.2.memo = []) s := by
    exact ⟨trivial, fun t s₁ _ => ⟨trivial, fun _ s₂ _ => ⟨trivial, fun _ s₃ _ => ⟨rfl, rfl, rfl⟩⟩⟩⟩
  rw [runLoop, wp_seq]
  refine wp_mono (wp_and (wp_silent hstart) hends) ?_
  rintro ⟨l, st⟩ s' ⟨⟨ho, -⟩, htag, hconfig, hmemo⟩
  have hbetween : Between x l st s' := by
    refine ⟨⟨ho.store.token h.token, ?_, ?_⟩, fun ls hls => ?_⟩
    · exact (ho.store.config.trans h.config).trans hconfig.symm
    · exact hmemo ▸ nofun
    · rw [ho.store.listed, h.listed] at hls
      cases hls
  show wp _ _ (turns x l n st >>= _) _ _
  rw [wp_seq]
  exact wp_mono (wp_turns_between hinj hbetween) fun st' s'' h' => ⟨h', htag⟩

/-- **The loop loses no document change (proved)**: between two polls, while the store's token is the
one remembered and the reads of the last pass did not fail, every guest that pass looked at had the
document it has now; where it has one, the trace has an attempt for that one, with the config in use
unless a changed one was re-read since, and until then it is remembered. -/
theorem no_change_lost {ctx : Ctx} {n : ℕ} {s s' s'' : Store} {tr : List (Event sig)}
    {r : LoopCtx × LoopState} {ls : List Listed} (hinj : Function.Injective x.digest) (hs : s.Started ctx)
    (hrun : Run (storeWorld x) s (runLoop x ctx n) tr r s')
    (hlater : Relation.ReflTransGen Outside s' s'') (htoken : s''.token = r.2.lastToken)
    (hlist : s''.listed = some (.ok ls)) (hreads : s''.ReadAll) :
    ∀ g ∈ ls, g.Reached ctx →
      (∃ a, (g.vmid, .ok a) ∈ s''.answered ∧ a.map Read.text = s''.docs g.vmid) ∧
        ∀ text, s''.docs g.vmid = some text →
          (∃ config read, (s''.noticed = false → config = r.2.config) ∧ read.text = text ∧
            AttemptedFor x (r.1.ctx config) g.vmid read tr) ∧
          (s''.noticed = false → Assoc.get? g.vmid r.2.memo = some (x.digest text)) := by
  have htraced : Run (storeWorld x).traced (s, []) (runLoop x ctx n) tr r (s', tr) := run_traced hrun
  obtain ⟨hend, htag⟩ := wp_run (wp_runLoop_between (s := (s, [])) hinj hs) htraced
  have hbetween : Between x r.1 r.2 (s'', tr) :=
    hend.later ⟨onward_of_outside hlater, List.prefix_refl tr⟩
  obtain ⟨-, hall⟩ := hbetween.handled ls hlist
  intro g hg hreached
  have hsel : g.Reached (r.1.ctx r.2.config) := by
    have hctx : (r.1.ctx r.2.config).selected g.tags = ctx.selected g.tags := by
      unfold Ctx.selected LoopCtx.ctx
      rw [htag]
    exact ⟨hreached.1, hreached.2.1, hctx ▸ hreached.2.2⟩
  have hh := hall g hg hsel htoken hreads
  exact ⟨hh.found, fun text ht => ⟨hh.attempted text ht, fun hn => hh.memo hn text ht⟩⟩

/-! ### A store to poll -/

/-- The node of the loop: guest 105 runs, and its document is there. -/
def webStore : Store where
  docs v := if v = 105 then some (webText "nginx") else none
  token := "1"
  file := .notFound
  used := ["1"]
  config := Config.default
  listed := none
  answered := []
  unchanged := true
  noticed := false

theorem webStore_started : webStore.Started webCtx :=
  ⟨by decide, rfl, rfl⟩

/-- A config file with which the loop polls less often. -/
def slowText : Text := "daemon:\n  interval: 60\n"

def slowConfig : Config := { Config.default with daemon := ⟨60, 600⟩ }

def pollExternal : External := .on webDocs [(slowText, slowConfig)]

theorem pollDigest_injective : Function.Injective pollExternal.digest :=
  webDigest_injective

/-- A node on which everything that is asked succeeds; if `edits`, the config file is changed right
before each list. -/
def pollAnswer (edits : Bool) (s : Store) : (c : Cmd) → c.Answer × Store
  | .version => (.ok (some s.token), s)
  | .loadConfig => (s.file, s.readConfig (Config.load pollExternal.configFromYaml s.file))
  | .now => (0, s)
  | .wallClock => ("2026-01-01T00:00:00+00:00".toList, s)
  | .sleep _ | .notify _ | .report _ | .unlock _ => ((), s)
  | .list _ =>
    let r := .ok [{ vmid := 105, running := true, tags := [], isTemplate := false }]
    (r, (if edits then s.setFile (.text slowText) else s).beginPass r)
  | .metaGet v => (.ok (storeOutput (s.docs v)),
      s.answer v (.ok (storeOutput (s.docs v)) >>= readOutput pollExternal v))
  | .lock _ _ | .dockerInstall _ | .pull _ | .up _ | .pct _ _ _ | .writeCompose _ _ | .writeFacts _ _ =>
    (.ok (), s)
  | .status _ _ => (.ok .running, s)
  | .config _ _ => (.ok (some webConf), s)
  | .dockerInfo _ => (.ok 0, s)
  | .exec _ _ => (.ok ⟨0, [], []⟩, s)
  | .ps _ => (.ok [], s)
  | .readCompose _ => (.ok none, s)
  | .readFacts _ => (.ok none, s)

theorem pollAnswer_reply (edits : Bool) (s : Store) (c : Cmd) :
    (storeWorld pollExternal).reply s c (pollAnswer edits s c).1 (pollAnswer edits s c).2 := by
  cases c with
  | version => exact ⟨s, .refl, rfl, by rintro _ ⟨⟩; rfl⟩
  | loadConfig => exact ⟨s, .refl, .inl rfl, rfl⟩
  | list _ =>
    cases edits with
    | true => exact ⟨_, .single (.file _), rfl⟩
    | false => exact ⟨s, .refl, rfl⟩
  | metaGet v =>
    refine ⟨s, .refl, fun out hout => ?_, rfl⟩
    obtain rfl : storeOutput (s.docs v) = out := Except.ok.inj hout
    cases s.docs v <;> simp [storeOutput]
  | _ => exact ⟨s, .refl, rfl⟩

def webListed : Listed := { vmid := 105, running := true, tags := [], isTemplate := false }

/-- The first turns of the loop on that node. -/
def polled (edits : Bool) (n : ℕ) : (LoopCtx × LoopState) × Store :=
  (runLoop pollExternal webCtx n).interpret (pollAnswer edits) webStore

theorem polled_run (edits : Bool) (n : ℕ) : ∃ tr, Run (storeWorld pollExternal) webStore
    (runLoop pollExternal webCtx n) tr (polled edits n).1 (polled edits n).2 :=
  run_interpret (pollAnswer_reply edits) _ _

/-- The last pass found guest 105 alone, and read every document. -/
def Store.found (s : Store) : Bool :=
  (s.listed.any fun r => r.toOption = some [webListed]) && s.answered.all fun a => a.2.isOk

theorem Store.listed_of_found {s : Store} (h : s.found = true) : s.listed = some (.ok [webListed]) := by
  obtain ⟨r, hr, hok⟩ := (Option.any_eq_true _ _).mp (Bool.and_eq_true_iff.mp h).1
  cases r with
  | error e => exact absurd (of_decide_eq_true hok) nofun
  | ok ls => rw [hr, Option.some.inj (of_decide_eq_true hok)]

theorem Store.readAll_of_found {s : Store} (h : s.found = true) : s.ReadAll := by
  intro v e hm
  have hok := List.all_eq_true.mp (Bool.and_eq_true_iff.mp h).2 _ hm
  exact absurd hok Bool.false_ne_true

/-- One turn in which nothing changes: the guest is attempted and remembered. -/
theorem no_change_lost_web : ∃ tr, Run (storeWorld pollExternal) webStore
      (runLoop pollExternal webCtx 1) tr (polled false 1).1 (polled false 1).2 ∧
    (∃ read, read.text = webText "nginx" ∧ AttemptedFor pollExternal
      ((polled false 1).1.1.ctx (polled false 1).1.2.config) webListed.vmid read tr) ∧
    Assoc.get? webListed.vmid (polled false 1).1.2.memo
      = some (pollExternal.digest (webText "nginx")) := by
  obtain ⟨hfound, htoken, hdocs, hnoticed⟩ : (polled false 1).2.found = true ∧
      (polled false 1).2.token = (polled false 1).1.2.lastToken ∧
      (polled false 1).2.docs webListed.vmid = some (webText "nginx") ∧
      (polled false 1).2.noticed = false := by decide +kernel
  have hreached : webListed.Reached webCtx := ⟨by decide, by decide, by decide⟩
  obtain ⟨tr, hrun⟩ := polled_run false 1
  have hall := no_change_lost pollDigest_injective webStore_started hrun .refl htoken
    (Store.listed_of_found hfound) (Store.readAll_of_found hfound)
    webListed (List.mem_singleton_self _) hreached
  obtain ⟨⟨config, read, hconfig, htext, hatt⟩, hmemo⟩ := hall.2 (webText "nginx") hdocs
  rw [hconfig hnoticed] at hatt
  exact ⟨tr, hrun, ⟨read, htext, hatt⟩, hmemo hnoticed⟩

/-- **The memo may be dropped without a pass.**  The config file changes between the re-read of a
turn and the pass of that turn; the next poll drops the memo and makes no pass, though the file is as
it was when the last pass began. -/
theorem memo_dropped :
    (∃ tr, Run (storeWorld pollExternal) webStore (runLoop pollExternal webCtx 2) tr
      (polled true 2).1 (polled true 2).2) ∧
    (polled true 2).2.token = (polled true 2).1.2.lastToken ∧
    (polled true 2).2.listed = some (.ok [webListed]) ∧ webListed.Reached webCtx ∧
    (polled true 2).2.ReadAll ∧ (polled true 2).2.unchanged = true ∧
    (polled true 2).2.docs 105 = some (webText "nginx") ∧
    Assoc.get? 105 (polled true 2).1.2.memo = none := by
  obtain ⟨hfound, htoken, hunchanged, hdocs, hmemo⟩ : (polled true 2).2.found = true ∧
      (polled true 2).2.token = (polled true 2).1.2.lastToken ∧
      (polled true 2).2.unchanged = true ∧
      (polled true 2).2.docs 105 = some (webText "nginx") ∧
      Assoc.get? 105 (polled true 2).1.2.memo = none := by decide +kernel
  exact ⟨polled_run true 2, htoken, Store.listed_of_found hfound,
    ⟨by decide, by decide, by decide⟩, Store.readAll_of_found hfound, hunchanged, hdocs, hmemo⟩

end PveCompose
