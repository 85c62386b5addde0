import PveCompose.Node

/-!
# What a pass reads and attempts (`ops/daemon.rs`)

A visit is taken apart in any world, whatever is answered.

* `Attended` — a guest is passed by, its document is read and nothing more comes of it, or it is
  attempted for what was read right before; `attended_of_yields` — **PROVED**: a visit is one of these;
* `Recalls` — every digest remembered is that of a document attempted, the invariant of the memo;
* `covers_of_pass` — **PROVED**: a pass that begins with nothing remembered reads the document of every
  guest it reaches, and attempts every guest whose document it read.
-/

namespace PveCompose

open Programs

variable {x : External} {ctx : Ctx} {memo memo' : Memo} {tr before : List (Event sig)} {ls : List Listed}

/-! ### Attempts in a trace -/

/-- Somewhere in the trace the guest's document is read, and the guest attempted for what was read. -/
def AttemptedFor (x : External) (ctx : Ctx) (v : ℕ) (read : Read) (tr : List (Event sig)) : Prop :=
  ∃ (a : Result Output) (part : List (Event sig)) (r : Result Unit),
    (a >>= readOutput x v) = .ok (some read) ∧ Yields (attempt x ctx v read).run part r ∧
      ⟨.metaGet v, a⟩ :: part <:+: tr

/-- Somewhere in the trace the guest is attempted for a document of this digest. -/
def AttemptedIn (x : External) (ctx : Ctx) (v : ℕ) (digest : Text) (tr : List (Event sig)) : Prop :=
  ∃ read, read.digest = digest ∧ AttemptedFor x ctx v read tr

/-- What is remembered was attempted. -/
def Recalls (x : External) (ctx : Ctx) (memo : Memo) (tr : List (Event sig)) : Prop :=
  ∀ v d, Assoc.get? v memo = some d → AttemptedIn x ctx v d tr

/-- Whoever's document is read in `part` is attempted for it, in `tr`. -/
def Heeds (x : External) (ctx : Ctx) (part tr : List (Event sig)) : Prop :=
  ∀ v (a : Result Output) read, ⟨.metaGet v, a⟩ ∈ part → (a >>= readOutput x v) = .ok (some read) →
    AttemptedIn x ctx v read.digest tr

/-- Every running selected guest is read, and attempted if it has a document. -/
structure Covers (x : External) (ctx : Ctx) (ls : List Listed) (tr : List (Event sig)) : Prop where
  reads : ∀ g ∈ ls, g.Reached ctx → ∃ a : Result Output, ⟨.metaGet g.vmid, a⟩ ∈ tr
  heeds : Heeds x ctx tr tr

theorem AttemptedFor.append {v : ℕ} {read : Read} (h : AttemptedFor x ctx v read before)
    (hsub : before <:+: tr) : AttemptedFor x ctx v read tr := by
  obtain ⟨a, part, r, ha, hy, hpart⟩ := h
  exact ⟨a, part, r, ha, hy, hpart.trans hsub⟩

theorem AttemptedIn.append {v : ℕ} {d : Text} (h : AttemptedIn x ctx v d before)
    (hsub : before <:+: tr) : AttemptedIn x ctx v d tr := by
  obtain ⟨read, hd, hfor⟩ := h
  exact ⟨read, hd, hfor.append hsub⟩

theorem Recalls.append (h : Recalls x ctx memo before) (hsub : before <:+: tr) :
    Recalls x ctx memo tr := fun v d hd => (h v d hd).append hsub

theorem Heeds.append {part : List (Event sig)} (h : Heeds x ctx part before) (hsub : before <:+: tr) :
    Heeds x ctx part tr := fun v a read ha hread => (h v a read ha hread).append hsub

/-- What was attempted was attempted for a document of the guest, under its own digest. -/
theorem AttemptedFor.digest {v : ℕ} {read : Read} (h : AttemptedFor x ctx v read tr) :
    read.digest = x.digest read.text := by
  obtain ⟨a, part, r, ha, -, -⟩ := h
  obtain ⟨out, -, hout⟩ := bind_eq_ok.mp ha
  exact (decoded_of_readOutput hout).digest

/-! ### One guest -/

/-- What a visit comes to. -/
inductive Attended (x : External) (ctx : Ctx) (memo : Memo) (g : Listed) :
    List (Event sig) → Memo → Prop where
  | skipped : ¬ g.Reached ctx → Attended x ctx memo g [] memo
  | passed {a : Result Output} {rest : List (Event sig)} : g.Reached ctx →
      (∀ read, (a >>= readOutput x g.vmid) = .ok (some read) →
        Assoc.get? g.vmid memo = some read.digest) →
      (∀ e ∈ rest, e.1.OfAttempt) → Attended x ctx memo g (⟨.metaGet g.vmid, a⟩ :: rest) memo
  | attempted {a : Result Output} {read : Read} {r : Result Unit} {part rest : List (Event sig)} :
      g.Reached ctx → (a >>= readOutput x g.vmid) = .ok (some read) →
      Yields (attempt x ctx g.vmid read).run part r → (∀ e ∈ part ++ rest, e.1.OfAttempt) →
      Attended x ctx memo g (⟨.metaGet g.vmid, a⟩ :: (part ++ rest)) (Assoc.set g.vmid read.digest memo)

theorem ofAttempt_say {msg : Text} {u : Unit} (h : Yields (say msg) tr u) : ∀ e ∈ tr, e.1.OfAttempt := by
  obtain rfl := yields_ask.mp h
  exact List.forall_mem_singleton.mpr trivial

/-- A visit that attempted its guest remembers the digest, with a ping. -/
theorem remembered_of_yields {v : ℕ} {d : Text} (h : Yields (do
      watchdog
      pure (Assoc.set v d memo)) tr memo') :
    memo' = Assoc.set v d memo ∧ ∀ e ∈ tr, e.1.OfAttempt := by
  obtain ⟨_, u, _, rfl, hdog, hset⟩ := yields_seq.mp h
  obtain rfl := yields_ask.mp hdog
  obtain ⟨rfl, rfl⟩ := yields_pure.mp hset
  exact ⟨rfl, List.forall_mem_singleton.mpr trivial⟩

/-- **One guest (proved).** -/
theorem attended_of_yields {g : Listed} (h : Yields (visit x ctx memo g) tr memo') :
    Attended x ctx memo g tr memo' := by
  unfold visit at h
  split_ifs at h with hskip
  · obtain ⟨rfl, rfl⟩ := yields_pure.mp h
    refine .skipped fun hreached => ?_
    obtain ⟨ht, hrun, hsel⟩ := hreached
    exact absurd hskip (by simp [ht, hrun, hsel])
  have hreached : g.Reached ctx := by
    simp only [not_or, not_not] at hskip
    exact hskip
  obtain ⟨tr₁, a, rest, rfl, hread, hrest⟩ := yields_seq.mp h
  obtain ⟨r, tr', rfl, hret⟩ := yields_call.mp hread
  obtain ⟨rfl, rfl⟩ := yields_ret.mp hret
  dsimp only at hrest
  generalize ha : (r >>= readOutput x g.vmid) = a at hrest
  rw [List.singleton_append]
  cases a with
  | error e =>
    obtain ⟨tr₃, u, tr₄, rfl, hsay, hend⟩ := yields_seq.mp hrest
    obtain ⟨rfl, rfl⟩ := yields_pure.mp hend
    rw [List.append_nil]
    exact .passed hreached (fun read hr => by cases ha.symm.trans hr) (ofAttempt_say hsay)
  | ok found =>
    cases found with
    | none =>
      obtain ⟨rfl, rfl⟩ := yields_pure.mp hrest
      exact .passed hreached (fun read hr => by cases ha.symm.trans hr) (List.forall_mem_nil _)
    | some read =>
      dsimp only at hrest
      split_ifs at hrest with hmemo
      · obtain ⟨rfl, rfl⟩ := yields_pure.mp hrest
        refine .passed hreached (fun read' hr => ?_) (List.forall_mem_nil _)
        obtain rfl : read = read' := Option.some.inj (Except.ok.inj (ha.symm.trans hr))
        exact hmemo
      · obtain ⟨part, ra, after, rfl, hatt, hend⟩ := yields_seq.mp hrest
        have hpart := only_events (only_attemptGuest x ctx g.vmid read) hatt
        -- the attempt is followed by what is said of its failure, and by a ping
        have hafter : memo' = Assoc.set g.vmid read.digest memo ∧ ∀ e ∈ after, e.1.OfAttempt := by
          cases ra with
          | error e =>
            obtain ⟨_, u, _, rfl, hsay, hend⟩ := yields_seq.mp hend
            obtain ⟨hset, hquiet⟩ := remembered_of_yields hend
            exact ⟨hset, List.forall_mem_append.mpr ⟨ofAttempt_say hsay, hquiet⟩⟩
          | ok u => exact remembered_of_yields hend
        obtain ⟨rfl, hquiet⟩ := hafter
        exact .attempted hreached ha hatt (List.forall_mem_append.mpr ⟨hpart, hquiet⟩)

/-- A visit reads the document of its guest, once, and else issues what an attempt may. -/
theorem Attended.only {g : Listed} (h : Attended x ctx memo g tr memo') :
    ∀ e ∈ tr, (g.Reached ctx ∧ e.1 = .metaGet g.vmid) ∨ e.1.OfAttempt := by
  cases h with
  | skipped _ => exact List.forall_mem_nil _
  | passed hreached _ hrest =>
    exact List.forall_mem_cons.mpr ⟨.inl ⟨hreached, rfl⟩, fun e he => .inr (hrest e he)⟩
  | attempted hreached _ _ hrest =>
    exact List.forall_mem_cons.mpr ⟨.inl ⟨hreached, rfl⟩, fun e he => .inr (hrest e he)⟩

/-- A read among the lines of a visit is its first line. -/
theorem mem_read {v v' : ℕ} {a a' : Result Output} {rest : List (Event sig)}
    (h : (⟨.metaGet v, a⟩ : Event sig) ∈ (⟨.metaGet v', a'⟩ : Event sig) :: rest)
    (hrest : ∀ e ∈ rest, e.1.OfAttempt) : v = v' ∧ a = a' := by
  rcases List.mem_cons.mp h with heq | hmem
  · cases heq
    exact ⟨rfl, rfl⟩
  · exact (hrest _ hmem).elim

/-- **The memo along a visit (proved)**: what is remembered was attempted, and so is what is read. -/
theorem Attended.recalls {g : Listed} (h : Attended x ctx memo g tr memo')
    (hm : Recalls x ctx memo before) :
    Recalls x ctx memo' (before ++ tr) ∧ Heeds x ctx tr (before ++ tr) := by
  have hkeep : ∀ {tr}, Recalls x ctx memo (before ++ tr) :=
    hm.append (List.prefix_append _ _).isInfix
  cases h with
  | skipped _ => exact ⟨hkeep, fun _ _ _ ha => absurd ha List.not_mem_nil⟩
  | passed _ hmemo hrest =>
    refine ⟨hkeep, fun v a read ha hread => ?_⟩
    obtain ⟨rfl, rfl⟩ := mem_read ha hrest
    exact hkeep _ _ (hmemo read hread)
  | @attempted a read r part rest _ ha hatt hrest =>
    have hin : AttemptedIn x ctx g.vmid read.digest
        (before ++ ⟨.metaGet g.vmid, a⟩ :: (part ++ rest)) :=
      ⟨read, rfl, a, part, r, ha, hatt, before, rest, by simp⟩
    refine ⟨fun v d hd => ?_, fun v a' read' ha' hread => ?_⟩
    · rw [Assoc.get?_set] at hd
      split_ifs at hd with hv
      · obtain rfl := Option.some.inj hd
        exact hv ▸ hin
      · exact hkeep v d hd
    · obtain ⟨rfl, rfl⟩ := mem_read ha' hrest
      obtain rfl : read = read' := Option.some.inj (Except.ok.inj (ha.symm.trans hread))
      exact hin

theorem Attended.reads {g : Listed} (h : Attended x ctx memo g tr memo') (hg : g.Reached ctx) :
    ∃ a : Result Output, ⟨.metaGet g.vmid, a⟩ ∈ tr := by
  cases h with
  | skipped hskip => exact absurd hg hskip
  | passed _ _ _ => exact ⟨_, List.mem_cons_self⟩
  | attempted _ _ _ _ => exact ⟨_, List.mem_cons_self⟩

/-! ### All guests -/

/-- A walk reads the documents of the guests it reaches, and else issues what an attempt may. -/
theorem visitAll_only (h : Yields (visitAll x ctx memo ls) tr memo') :
    ∀ e ∈ tr, (∃ g ∈ ls, g.Reached ctx ∧ e.1 = .metaGet g.vmid) ∨ e.1.OfAttempt := by
  induction ls generalizing memo tr with
  | nil =>
    obtain ⟨rfl, -⟩ := yields_pure.mp h
    exact List.forall_mem_nil _
  | cons g ls ih =>
    obtain ⟨tr₁, memo₁, tr₂, rfl, hvisit, hrest⟩ := yields_seq.mp h
    intro e he
    rcases List.mem_append.mp he with he | he
    · rcases (attended_of_yields hvisit).only e he with hread | hatt
      · exact .inl ⟨g, List.mem_cons_self, hread⟩
      · exact .inr hatt
    · rcases ih hrest e he with ⟨g', hg', hread⟩ | hatt
      · exact .inl ⟨g', List.mem_cons_of_mem _ hg', hread⟩
      · exact .inr hatt

/-- **A walk over the guests (proved).** -/
theorem recalls_of_visitAll (h : Yields (visitAll x ctx memo ls) tr memo')
    (hm : Recalls x ctx memo before) :
    (∀ g ∈ ls, g.Reached ctx → ∃ a : Result Output, ⟨.metaGet g.vmid, a⟩ ∈ tr) ∧
      Heeds x ctx tr (before ++ tr) := by
  induction ls generalizing memo before tr with
  | nil =>
    obtain ⟨rfl, -⟩ := yields_pure.mp h
    exact ⟨nofun, fun _ _ _ ha => absurd ha List.not_mem_nil⟩
  | cons g ls ih =>
    obtain ⟨tr₁, memo₁, tr₂, rfl, hvisit, hrest⟩ := yields_seq.mp h
    have hvisit := attended_of_yields hvisit
    obtain ⟨hm₁, hheeds₁⟩ := hvisit.recalls hm
    obtain ⟨hreads₂, hheeds₂⟩ := ih hrest hm₁
    rw [List.append_assoc] at hheeds₂
    refine ⟨fun g' hg' hr => ?_, fun v a read ha hread => ?_⟩
    · rcases List.mem_cons.mp hg' with rfl | hg'
      · obtain ⟨a, ha⟩ := hvisit.reads hr
        exact ⟨a, List.mem_append_left _ ha⟩
      · obtain ⟨a, ha⟩ := hreads₂ g' hg' hr
        exact ⟨a, List.mem_append_right _ ha⟩
    · rcases List.mem_append.mp ha with ha | ha
      · refine (hheeds₁ v a read ha hread).append ?_
        rw [← List.append_assoc]
        exact (List.prefix_append _ _).isInfix
      · exact hheeds₂ v a read ha hread

/-- **A pass with nothing remembered (proved)**: it covers what its list answered. -/
theorem covers_of_pass {r : Result Unit × Memo} (h : Yields (pass x ctx []) tr r) :
    ∃ a : Result (List Listed), ∃ rest, tr = ⟨.list ctx.node, a⟩ :: rest ∧
      ∀ ls, a = .ok ls → Covers x ctx ls tr := by
  obtain ⟨tr₁, a, rest, rfl, hlist, hrest⟩ := yields_seq.mp h
  obtain rfl := yields_ask.mp hlist
  refine ⟨a, rest, rfl, ?_⟩
  rintro ls rfl
  obtain ⟨tr₂, memo, tr₃, rfl, hall, hend⟩ := yields_seq.mp hrest
  obtain ⟨rfl, -⟩ := yields_pure.mp hend
  obtain ⟨hreads, hheeds⟩ :=
    recalls_of_visitAll hall (show Recalls x ctx _ [⟨.list ctx.node, .ok ls⟩] from nofun)
  rw [List.append_nil]
  refine ⟨fun g hg hr => ?_, fun v a read ha hread => ?_⟩
  · obtain ⟨a, ha⟩ := hreads g hg hr
    exact ⟨a, List.mem_append_right _ ha⟩
  · rcases List.mem_append.mp ha with ha | ha
    · cases List.mem_singleton.mp ha
    · exact hheeds v a read ha hread

end PveCompose
