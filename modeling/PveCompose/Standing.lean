import PveCompose.Foretold

/-!
# How a guest stands (`ops/status.rs`)

* `Row.Made`, `yields_rowsOf` — **how a row is made**, by what its guest's commands are answered;
* `rows_once` — **PROVED**: one row a guest, in the order of the list, each document read once; what
  cannot be read of a guest is in its row and stops no other;
* `Row.Says`, `rows_tell` — **PROVED**: each state of a row, and all else it has, is so of the guest: the
  document, the plan, the facts and the containers;
* `loop_agrees_with_status` — **PROVED**: what both levels call applied or down, the loop leaves alone.
-/

namespace PveCompose

open Programs

/-! ### Rows -/

/-- What a row has whatever becomes of its guest. -/
def Row.heading (r : Row) : ℕ × Text × Text × Bool := (r.vmid, r.name, r.node, r.running)

def headingOf (ctx : Ctx) (l : Listed × Text) : ℕ × Text × Text × Bool :=
  (l.1.vmid, l.2, ctx.node, l.1.running)

/-- The guest is one that was asked for. -/
def wanted (vmid : Option ℕ) (l : Listed × Text) : Bool :=
  ! l.1.isTemplate && vmid.all (l.1.vmid = ·)

/-- It was read that there is no document. -/
def noDocument : Result (Option Read) → Bool
  | .ok none => true
  | _ => false

/-- The guest has a row, its document being read as `a`: one that is neither asked for by number nor
selected has one only for its document, or for what was wrong with it. -/
def shows (x : External) (ctx : Ctx) (vmid : Option ℕ) (l : Listed × Text) (a : Result Output) : Bool :=
  vmid.isSome || ! noDocument (a >>= readOutput x l.1.vmid) || ctx.selected l.1.tags

/-- The reads of documents in a view, in order, with their answers. -/
def docReads (tr : List (Event viewSig)) : List (ℕ × Result Output) :=
  tr.filterMap fun
    | ⟨.host (.metaGet v), a⟩ => some (v, a)
    | _ => none

theorem docReads_append (tr tr' : List (Event viewSig)) :
    docReads (tr ++ tr') = docReads tr ++ docReads tr' := List.filterMap_append

theorem mem_of_docReads {tr : List (Event viewSig)} {v : ℕ} {a : Result Output}
    (h : (v, a) ∈ docReads tr) : ⟨.host (.metaGet v), a⟩ ∈ tr := by
  obtain ⟨ev, hev, hread⟩ := List.mem_filterMap.mp h
  obtain ⟨c, r⟩ := ev
  cases c with
  | host c =>
    cases c with
    | metaGet v' =>
      obtain ⟨rfl, rfl⟩ := Prod.mk.inj (Option.some.inj hread)
      exact hev
    | _ => cases hread
  | _ => cases hread

section

variable {x : External} {ctx : Ctx} {vmid : Option ℕ} {level : Level} {l : Listed × Text}
  {ls : List (Listed × Text)} {read : Read} {tr : List (Event viewSig)} {r : Row}

/-! ### How a row is made -/

/-- The config that an answer is read as. -/
def configAnswer (vmid : ℕ) (c : Result (Option PveConfig)) : Result GuestConfig := do
  match ← withContext ("guest " ++ dec vmid ++ ": cannot read config") c with
  | none => bail ("config of " ++ dec vmid ++ " is not an object")
  | some conf => parseConfig vmid conf

/-- The guest that a document and the answer for its config make. -/
def loadAnswer (ctx : Ctx) (read : Read) (c : Result (Option PveConfig)) : Result Guest := do
  let config ← configAnswer read.vmid c
  let volumes ← withContext ("guest " ++ dec read.vmid ++ ": compose.spec")
    (volumes read.doc.spec ctx.limits)
  pure { config, read, volumes }

/-- A row of a guest whose document was read. -/
def Row.documented (ctx : Ctx) (l : Listed × Text) (read : Read) : Row :=
  { Row.listed ctx l with policy := some (policySaid read.doc.policy) }

/-- **How the row of a guest that runs is made**, by what the guest is loaded as and what is answered
from then on. -/
inductive Judged (ctx : Ctx) (level : Level) (l : Listed × Text) (read : Read) :
    Result Guest → List (Event viewSig) → Row → Prop where
  | unloaded {e : Error} : Judged ctx level l read (.error e) [] ((Row.documented ctx l read).fail e)
  | unplanned {g : Guest} {e : Error} : pendingOf ctx g level = .error e →
      Judged ctx level l read (.ok g) [] ((Row.documented ctx l read).fail e)
  | pct {g : Guest} {pending : Option ℕ} : level = .pct → pendingOf ctx g level = .ok pending →
      Judged ctx level l read (.ok g) [] { Row.documented ctx l read with
        pctPending := pending, state := if pending = some 0 then "applied" else "pending" }
  | unrecorded {g : Guest} {pending : Option ℕ} {e : Error} : level ≠ .pct →
      pendingOf ctx g level = .ok pending →
      Judged ctx level l read (.ok g) [⟨.host (.readFacts l.1.vmid), .error e⟩]
        ({ Row.documented ctx l read with pctPending := pending }.fail e)
  | docker {g : Guest} {pending : Option ℕ} {facts : Option Facts} {list : Result (List ContainerRow)} :
      level ≠ .pct → pendingOf ctx g level = .ok pending →
      Judged ctx level l read (.ok g)
        [⟨.host (.readFacts l.1.vmid), .ok facts⟩, ⟨.containers l.1.vmid, list⟩]
        (({ Row.documented ctx l read with pctPending := pending }.withFacts g.read.digest
          facts).withPending.withContainers level list)

/-- **How a row is made**, by what is answered: nothing more is asked of a guest once something
failed. -/
inductive Row.Made (x : External) (ctx : Ctx) (level : Level) (l : Listed × Text) :
    List (Event viewSig) → Row → Prop where
  | unread {a : Result Output} {e : Error} : (a >>= readOutput x l.1.vmid) = .error e →
      Row.Made x ctx level l [⟨.host (.metaGet l.1.vmid), a⟩] ((Row.listed ctx l).fail e)
  | bare {a : Result Output} : (a >>= readOutput x l.1.vmid) = .ok none →
      Row.Made x ctx level l [⟨.host (.metaGet l.1.vmid), a⟩]
        { Row.listed ctx l with state := "no document" }
  | stopped {a : Result Output} {read : Read} : (a >>= readOutput x l.1.vmid) = .ok (some read) →
      l.1.running = false →
      Row.Made x ctx level l [⟨.host (.metaGet l.1.vmid), a⟩]
        { Row.documented ctx l read with state := "stopped" }
  | judged {a : Result Output} {c : Result (Option PveConfig)} {read : Read}
      {tr : List (Event viewSig)} {r : Row} : (a >>= readOutput x l.1.vmid) = .ok (some read) →
      l.1.running = true → Judged ctx level l read (loadAnswer ctx read c) tr r →
      Row.Made x ctx level l
        (⟨.host (.metaGet l.1.vmid), a⟩ :: ⟨.host (.config ctx.node l.1.vmid), c⟩ :: tr) r

/-- Reading a config asks once. -/
theorem yields_readConfig {node : Text} {v : ℕ} {tr : List (Event sig)} {a : Result GuestConfig}
    (h : Yields (readConfig node v).run tr a) : ∃ c : Result (Option PveConfig),
      tr = [⟨.config node v, c⟩] ∧ a = configAnswer v c := by
  unfold configAnswer
  rcases run_bind.mp h with ⟨e, hask, rfl⟩ | ⟨_, conf, _, tr₂, rfl, hask, hrest⟩
  · obtain ⟨c, rfl, -, hc⟩ := run_issue.mp hask
    exact ⟨c, rfl, by rw [← hc]; rfl⟩
  · obtain ⟨c, rfl, -, hc⟩ := run_issue.mp hask
    refine ⟨c, ?_⟩
    rw [← hc]
    cases conf with
    | none =>
      obtain ⟨rfl, rfl⟩ := yields_ofExcept.mp hrest
      exact ⟨rfl, rfl⟩
    | some conf =>
      obtain ⟨rfl, rfl⟩ := yields_ofExcept.mp hrest
      exact ⟨rfl, rfl⟩

/-- Loading a guest asks for its config, once. -/
theorem yields_loadWith {tr : List (Event sig)} {a : Result Guest}
    (h : Yields (loadWith ctx read).run tr a) : ∃ c : Result (Option PveConfig),
      tr = [⟨.config ctx.node read.vmid, c⟩] ∧ a = loadAnswer ctx read c := by
  unfold loadAnswer
  rcases run_bind.mp h with ⟨e, hconfig, rfl⟩ | ⟨_, config, _, tr₂, rfl, hconfig, hrest⟩
  · obtain ⟨c, rfl, hc⟩ := yields_readConfig hconfig
    exact ⟨c, rfl, by rw [← hc]; rfl⟩
  obtain ⟨c, rfl, hc⟩ := yields_readConfig hconfig
  refine ⟨c, ?_⟩
  rw [← hc]
  rcases run_bind.mp hrest with ⟨e, hvols, rfl⟩ | ⟨_, vols, _, tr₃, rfl, hvols, hret⟩
  · obtain ⟨rfl, hvolumes⟩ := yields_ofExcept.mp hvols
    rw [← hvolumes]
    exact ⟨rfl, rfl⟩
  · obtain ⟨rfl, hvolumes⟩ := yields_ofExcept.mp hvols
    obtain ⟨rfl, rfl⟩ := yields_ret.mp hret
    rw [← hvolumes]
    exact ⟨rfl, rfl⟩

theorem yields_readDoc {v : ℕ} {tr : List (Event sig)} {a : Result (Option Read)}
    (h : Yields (readDoc x v).run tr a) : ∃ answer : Result Output,
      tr = [⟨.metaGet v, answer⟩] ∧ a = (answer >>= readOutput x v) := by
  obtain ⟨answer, rfl, ha⟩ := yields_issue.mp h
  exact ⟨answer, rfl, ha⟩

/-- A program of an apply in a view issues what it issues. -/
theorem yields_viewHost {α : Type} {p : M α} {a : Result α} (h : Yields (View.host p).run tr a) :
    ∃ tr₀, Yields p.run tr₀ a ∧ List.Forall₂ viewEmbedding.Spells tr tr₀ := by
  obtain ⟨tr₁, a', _, rfl, hp, hret⟩ := yields_seq.mp h
  obtain ⟨rfl, rfl⟩ := yields_ret.mp hret
  obtain ⟨tr₀, hy, hall⟩ := yields_embed hp
  refine ⟨tr₀, ?_, by rwa [List.append_nil]⟩
  cases a' <;> exact hy

theorem yields_ask_host {c : Cmd} {r : c.Answer}
    (h : List.Forall₂ viewEmbedding.Spells tr [⟨c, r⟩]) : tr = [⟨.host c, r⟩] := by
  obtain ⟨ev, _, ⟨_, rfl, rfl⟩, hnil, rfl⟩ := List.forall₂_cons_right_iff.mp h
  rw [List.forall₂_nil_right_iff.mp hnil]
  rfl

/-- The row of a guest that runs, once it is loaded or not. -/
theorem judged_of_yields {a : Result Guest}
    (h : Yields (match a with
      | .error e => pure ((Row.documented ctx l read).fail e)
      | .ok g => loadedRow ctx g l.1.vmid level (Row.documented ctx l read)) tr r) :
    Judged ctx level l read a tr r := by
  cases a with
  | error e =>
    obtain ⟨rfl, rfl⟩ := yields_pure.mp h
    exact .unloaded
  | ok g =>
    dsimp only at h
    unfold loadedRow at h
    cases hp : pendingOf ctx g level with
    | error e =>
      rw [hp] at h
      obtain ⟨rfl, rfl⟩ := yields_pure.mp h
      exact .unplanned hp
    | ok pending =>
      rw [hp] at h
      dsimp only at h
      by_cases hlevel : level = .pct
      · rw [if_pos hlevel] at h
        obtain ⟨rfl, rfl⟩ := yields_pure.mp h
        exact .pct hlevel hp
      rw [if_neg hlevel] at h
      obtain ⟨_, facts, _, rfl, hfacts, hrest⟩ := yields_seq.mp h
      obtain rfl := yields_ask.mp hfacts
      cases facts with
      | error e =>
        obtain ⟨rfl, rfl⟩ := yields_pure.mp hrest
        exact .unrecorded hlevel hp
      | ok facts =>
        obtain ⟨_, list, _, rfl, hlist, hret⟩ := yields_seq.mp hrest
        obtain rfl := yields_ask.mp hlist
        obtain ⟨rfl, rfl⟩ := yields_pure.mp hret
        exact .docker hlevel hp

/-- **The row of a document that was read (proved).** -/
theorem made_of_yields {a : Result Output} {found : Option Read}
    (ha : (a >>= readOutput x l.1.vmid) = .ok found) (h : Yields (row ctx l level found) tr r) :
    Row.Made x ctx level l (⟨.host (.metaGet l.1.vmid), a⟩ :: tr) r := by
  cases found with
  | none =>
    obtain ⟨rfl, rfl⟩ := yields_pure.mp h
    exact .bare ha
  | some read =>
    change Yields (if _ then _ else _) tr r at h
    split_ifs at h with hrun
    · obtain ⟨_, loaded, tr₂, rfl, hload, hrest⟩ := yields_seq.mp h
      obtain ⟨_, hy, hall⟩ := yields_viewHost hload
      obtain ⟨c, rfl, rfl⟩ := yields_loadWith hy
      obtain rfl := yields_ask_host hall
      obtain ⟨out, -, hout⟩ := bind_eq_ok.mp ha
      have hvmid : read.vmid = l.1.vmid := (decoded_of_readOutput hout).vmid
      rw [hvmid]
      exact .judged ha hrun (judged_of_yields hrest)
    · obtain ⟨rfl, rfl⟩ := yields_pure.mp h
      exact .stopped ha (Bool.not_eq_true _ ▸ hrun)

/-! ### The headings -/

@[simp] theorem Row.heading_withFacts (r : Row) (d : Text) (f : Option Facts) :
    (r.withFacts d f).heading = r.heading := by cases f <;> rfl

/-- All of a row but its state and its containers. -/
def Row.body (r : Row) : Row := { r with state := [], containers := [] }

theorem Row.body_withPending (r : Row) : r.withPending.body = r.body := by
  unfold Row.withPending
  split_ifs <;> rfl

theorem Row.body_withContainers (r : Row) (a : Result (List ContainerRow)) :
    (r.withContainers level a).body = r.body := by
  cases a with
  | error e => rfl
  | ok list =>
    show Row.body (if _ then _ else _) = _
    split_ifs <;> rfl

/-- The facts come first; what is done then keeps all but the state and the containers. -/
theorem Row.body_docker (r : Row) (a : Result (List ContainerRow)) :
    (r.withPending.withContainers level a).body = r.body :=
  (Row.body_withContainers _ _).trans (Row.body_withPending r)

theorem Judged.heading {a : Result Guest} (h : Judged ctx level l read a tr r) :
    r.heading = headingOf ctx l := by
  cases h with
  | docker _ _ =>
    refine (congrArg Row.heading (Row.body_docker _ _)).trans ?_
    exact Row.heading_withFacts _ _ _
  | _ => rfl

theorem Row.Made.heading (h : Row.Made x ctx level l tr r) : r.heading = headingOf ctx l := by
  cases h with
  | judged _ _ hj => exact hj.heading
  | _ => rfl

/-- No document is read any more. -/
theorem Judged.unread {a : Result Guest} (h : Judged ctx level l read a tr r) : docReads tr = [] := by
  cases h <;> rfl

theorem Row.Made.reads {a : Result Output}
    (h : Row.Made x ctx level l (⟨.host (.metaGet l.1.vmid), a⟩ :: tr) r) :
    docReads (⟨.host (.metaGet l.1.vmid), a⟩ :: tr) = [(l.1.vmid, a)] := by
  have hrest : docReads tr = [] := by
    cases h with
    | judged _ _ hj => exact hj.unread
    | _ => rfl
  show (l.1.vmid, a) :: docReads tr = _
  rw [hrest]

/-! ### What failed -/

/-- An answer that is of no use for the guest `v`: no document, no config or no facts can be read
from it. -/
inductive Failed (x : External) : Event viewSig → ℕ → Error → Prop where
  | document {v : ℕ} {a : Result Output} {e : Error} : (a >>= readOutput x v) = .error e →
      Failed x ⟨.host (.metaGet v), a⟩ v e
  | config {node : Text} {v : ℕ} {c : Result (Option PveConfig)} {e : Error} :
      configAnswer v c = .error e → Failed x ⟨.host (.config node v), c⟩ v e
  | facts {v : ℕ} {e : Error} : Failed x ⟨.host (.readFacts v), .error e⟩ v e

/-- **A failed answer is told (proved)**: the row is the error's. -/
theorem Row.Made.failed {ev : Event viewSig} {v : ℕ} {e : Error} (h : Row.Made x ctx level l tr r)
    (hev : ev ∈ tr) (hf : Failed x ev v e) : v = l.1.vmid ∧ r.state = "error: " ++ e.display := by
  cases h with
  | unread ha =>
    obtain rfl := List.mem_singleton.mp hev
    cases hf with
    | document he =>
      obtain rfl := Except.error.inj (ha.symm.trans he)
      exact ⟨rfl, rfl⟩
  | bare ha =>
    obtain rfl := List.mem_singleton.mp hev
    cases hf with
    | document he => cases ha.symm.trans he
  | stopped ha _ =>
    obtain rfl := List.mem_singleton.mp hev
    cases hf with
    | document he => cases ha.symm.trans he
  | @judged a c read tr r ha hrun hj =>
    obtain ⟨out, -, hout⟩ := bind_eq_ok.mp ha
    have hvmid : read.vmid = l.1.vmid := (decoded_of_readOutput hout).vmid
    rcases List.mem_cons.mp hev with rfl | hev
    · cases hf with
      | document he => cases ha.symm.trans he
    rcases List.mem_cons.mp hev with rfl | hev
    · cases hf with
      | config he =>
        have hload : loadAnswer ctx read c = .error e := by
          rw [loadAnswer, hvmid, he]
          rfl
        rw [hload] at hj
        cases hj
        exact ⟨rfl, rfl⟩
    · generalize loadAnswer ctx read c = loaded at hj
      cases hj with
      | unrecorded _ _ =>
        obtain rfl := List.mem_singleton.mp hev
        cases hf
        exact ⟨rfl, rfl⟩
      | docker _ _ =>
        rcases List.mem_cons.mp hev with rfl | hev
        · cases hf
        · obtain rfl := List.mem_singleton.mp hev
          cases hf
      | _ => cases hev

/-! ### One row a guest -/

/-- The rows that come of reading the documents of `ls` as `answers`. -/
def shownOf (x : External) (ctx : Ctx) (vmid : Option ℕ) (ls : List (Listed × Text))
    (answers : List (ℕ × Result Output)) : List (ℕ × Text × Text × Bool) :=
  ((ls.zip answers).filter fun p => shows x ctx vmid p.1 p.2.2).map fun p => headingOf ctx p.1

/-- **One guest (proved)**: it is passed over, or its document is read and that is all, or its row is
made. -/
theorem yields_rowOf {r : Option Row} (h : Yields (rowOf x ctx vmid level l) tr r) :
    (wanted vmid l = false ∧ tr = [] ∧ r = none) ∨
      wanted vmid l = true ∧ ∃ a, docReads tr = [(l.1.vmid, a)] ∧
        ((shows x ctx vmid l a = false ∧ tr = [⟨.host (.metaGet l.1.vmid), a⟩] ∧
            (a >>= readOutput x l.1.vmid) = .ok none ∧ r = none) ∨
          shows x ctx vmid l a = true ∧ ∃ r', r = some r' ∧ Row.Made x ctx level l tr r') := by
  have hskip : (l.1.isTemplate ∨ ∃ v ∈ vmid, l.1.vmid ≠ v) ↔ wanted vmid l = false := by
    unfold wanted
    cases vmid <;> cases l.1.isTemplate <;> simp
  unfold rowOf at h
  cases hw : wanted vmid l with
  | false =>
    rw [if_pos (hskip.mpr hw)] at h
    obtain ⟨rfl, rfl⟩ := yields_pure.mp h
    exact .inl ⟨rfl, rfl, rfl⟩
  | true =>
    rw [if_neg (by rw [hskip, hw]; decide)] at h
    refine .inr ⟨rfl, ?_⟩
    obtain ⟨_, found, tr₂, rfl, hread, hrest⟩ := yields_seq.mp h
    obtain ⟨_, hy, hall⟩ := yields_viewHost hread
    obtain ⟨a, rfl, ha⟩ := yields_readDoc hy
    obtain rfl := yields_ask_host hall
    refine ⟨a, ?_⟩
    unfold shows
    rw [← ha]
    cases found with
    | error e =>
      obtain ⟨rfl, rfl⟩ := yields_pure.mp hrest
      exact ⟨rfl, .inr ⟨by simp [noDocument], _, rfl, .unread ha.symm⟩⟩
    | ok found =>
      dsimp only at hrest
      split_ifs at hrest with hnone
      · obtain ⟨rfl, rfl⟩ := yields_pure.mp hrest
        obtain ⟨rfl, hfound, hsel⟩ := hnone
        obtain rfl := Option.isNone_iff_eq_none.mp hfound
        exact ⟨rfl, .inl ⟨by simp [noDocument, hsel], rfl, rfl, rfl⟩⟩
      · obtain ⟨tr₃, r', _, rfl, hrow, hret⟩ := yields_seq.mp hrest
        obtain ⟨rfl, rfl⟩ := yields_pure.mp hret
        rw [List.append_nil]
        have hmade := made_of_yields ha.symm hrow
        refine ⟨hmade.reads, .inr ⟨?_, r', rfl, hmade⟩⟩
        cases vmid <;> cases found <;> simp_all [noDocument]

theorem docReads_rowOf {r : Option Row} (h : Yields (rowOf x ctx vmid level l) tr r) :
    (docReads tr).map Prod.fst = ([l].filter (wanted vmid)).map (·.1.vmid) ∧
      r.toList.map Row.heading = shownOf x ctx vmid ([l].filter (wanted vmid)) (docReads tr) := by
  rw [List.filter_singleton]
  rcases yields_rowOf h with ⟨hw, rfl, rfl⟩ | ⟨hw, a, hreads, hrow⟩
  · rw [hw]
    exact ⟨rfl, rfl⟩
  rw [hw, hreads]
  refine ⟨rfl, ?_⟩
  show _ = List.map _ (List.filter _ [(l, (l.1.vmid, a))])
  rw [List.filter_singleton]
  rcases hrow with ⟨hshow, -, -, rfl⟩ | ⟨hshow, r', rfl, hmade⟩
  · rw [hshow]
    rfl
  · rw [hshow]
    exact congrArg (fun h => [h]) hmade.heading

/-- **The guests of a list (proved)**: each wanted one is read once, those shown have their row, and
what failed for one is in its row. -/
theorem yields_rowsOf {rs : List Row} (h : Yields (rowsOf x ctx vmid level ls) tr rs) :
    (docReads tr).map Prod.fst = (ls.filter (wanted vmid)).map (·.1.vmid) ∧
      rs.map Row.heading = shownOf x ctx vmid (ls.filter (wanted vmid)) (docReads tr) ∧
      (∀ r ∈ rs, ∃ l ∈ ls, ∃ part, part <:+: tr ∧ Row.Made x ctx level l part r) ∧
      ∀ ev ∈ tr, ∀ v e, Failed x ev v e → ∃ r ∈ rs, r.vmid = v ∧ r.state = "error: " ++ e.display := by
  induction ls generalizing tr rs with
  | nil =>
    obtain ⟨rfl, rfl⟩ := yields_pure.mp h
    exact ⟨rfl, rfl, nofun, nofun⟩
  | cons l ls ih =>
    obtain ⟨tr₁, r, tr₂, rfl, hone, h⟩ := yields_seq.mp h
    obtain ⟨tr₃, rs', _, rfl, hrest, hret⟩ := yields_seq.mp h
    obtain ⟨rfl, rfl⟩ := yields_pure.mp hret
    obtain ⟨hreads, hrow⟩ := docReads_rowOf hone
    obtain ⟨hreads', hrows, hmade, hfailed⟩ := ih hrest
    have hcut : (l :: ls).filter (wanted vmid) = [l].filter (wanted vmid) ++ ls.filter (wanted vmid) :=
      List.filter_append [l] ls
    have hlen : ([l].filter (wanted vmid)).length = (docReads tr₁).length := by
      simpa using (congrArg List.length hreads).symm
    rw [List.append_nil, docReads_append, hcut]
    refine ⟨by rw [List.map_append, List.map_append, hreads, hreads'], ?_, ?_, ?_⟩
    · rw [List.map_append, hrow, hrows, shownOf, shownOf, shownOf, List.zip_append hlen,
        List.filter_append, List.map_append]
    · intro r' hr'
      rcases List.mem_append.mp hr' with hr' | hr'
      · obtain rfl := Option.mem_toList.mp hr'
        rcases yields_rowOf hone with ⟨-, -, hnone⟩ | ⟨-, a, -, ⟨-, -, -, hnone⟩ | ⟨-, r'', hr'', hm⟩⟩
        · cases hnone
        · cases hnone
        · obtain rfl := Option.some.inj hr''
          exact ⟨l, List.mem_cons_self, tr₁, (List.prefix_append _ _).isInfix, hm⟩
      · obtain ⟨l', hl', part, hpart, hm⟩ := hmade r' hr'
        exact ⟨l', List.mem_cons_of_mem _ hl', part, hpart.trans (List.suffix_append _ _).isInfix, hm⟩
    · intro ev hev v e hf
      rcases List.mem_append.mp hev with hev | hev
      · rcases yields_rowOf hone with ⟨-, rfl, -⟩ | ⟨-, a, -, ⟨-, rfl, hnone, -⟩ | ⟨-, r', rfl, hm⟩⟩
        · cases hev
        · obtain rfl := List.mem_singleton.mp hev
          cases hf with
          | document he => cases hnone.symm.trans he
        · obtain ⟨rfl, hstate⟩ := hm.failed hev hf
          exact ⟨r', List.mem_append_left _ (Option.mem_toList.mpr rfl), congrArg Prod.fst hm.heading,
            hstate⟩
      · obtain ⟨r', hr', hat⟩ := hfailed ev hev v e hf
        exact ⟨r', List.mem_append_right _ hr', hat⟩

/-- **One row a guest (proved)**: `rows` fails only with the list; of what that answers, every guest
that was asked for is read once, in order, those shown have one row each, in order, and a guest of which
the document, the config or the facts cannot be read has a row that says so. -/
theorem rows_once {r : Result (List Row)} (h : Yields (rows x ctx vmid level).run tr r) :
    ∃ (a : Result (List (Listed × Text))) (rest : List (Event viewSig)),
      tr = ⟨.named ctx.node, a⟩ :: rest ∧ (∀ e, a = .error e → r = .error e ∧ rest = []) ∧
        ∀ ls, a = .ok ls → ∃ rs, r = .ok rs ∧
          (docReads rest).map Prod.fst = (ls.filter (wanted vmid)).map (·.1.vmid) ∧
          rs.map Row.heading = shownOf x ctx vmid (ls.filter (wanted vmid)) (docReads rest) ∧
          ∀ ev ∈ rest, ∀ v e, Failed x ev v e →
            ∃ r ∈ rs, r.vmid = v ∧ r.state = "error: " ++ e.display := by
  obtain ⟨tr₁, a, rest, rfl, hlist, hrest⟩ := yields_seq.mp h
  obtain ⟨answer, rfl, ha⟩ := yields_issue.mp hlist
  refine ⟨answer, rest, rfl, ?_, ?_⟩
  · intro e he
    rw [ha, show id answer = Except.error e from he] at hrest
    obtain ⟨rfl, rfl⟩ := yields_ret.mp hrest
    exact ⟨rfl, rfl⟩
  · intro ls hls
    rw [ha, show id answer = Except.ok ls from hls] at hrest
    obtain ⟨tr₂, rs, _, rfl, hrows, hret⟩ := yields_seq.mp hrest
    obtain ⟨rfl, rfl⟩ := yields_ret.mp hret
    rw [List.append_nil]
    obtain ⟨hreads, hshown, -, hfailed⟩ := yields_rowsOf hrows
    exact ⟨rs, rfl, hreads, hshown, hfailed⟩

end

/-! ### What a state says -/

/-- The guest is loaded as it is now. -/
structure Loaded (x : External) (ctx : Ctx) (s : Node) (vmid : ℕ) (g : Guest) : Prop where
  vmid : g.read.vmid = vmid
  read : ReadNow x s g.read
  loaded : LoadedNow ctx s g

/-- Nothing is left to do, as far as the level goes: nothing planned, facts that name the document. -/
structure Rests (ctx : Ctx) (s : Node) (g : Guest) (level : Level) : Prop where
  plan : level ≠ .docker → ∃ p, pctPlan ctx g = .ok p ∧ p.ops = []
  named : level ≠ .pct → s.Named g.read.vmid g.read.digest

/-- What a row has of a guest that is loaded, as far as the level goes. -/
structure Row.Shows (ctx : Ctx) (s : Node) (level : Level) (g : Guest) (r : Row) : Prop where
  running : r.running = true
  policy : r.policy = some (policySaid g.read.doc.policy)
  planned : level ≠ .docker → ∃ p, pctPlan ctx g = .ok p ∧ r.pctPending = some p.ops.length
  unplanned : level = .docker → r.pctPending = none
  recorded : level ≠ .pct → r.appliedAt = (s.facts r.vmid).map Facts.appliedAt ∧
    r.template = (s.facts r.vmid).bind Facts.template
  unrecorded : level = .pct → r.appliedAt = none ∧ r.template = none

/-- What a row has of the containers; `a` is the answer, at a level that asks for them. -/
structure Row.Lists (level : Level) (seen : List (Event viewSig)) (r : Row)
    (a : Result (List ContainerRow)) : Prop where
  asked : level ≠ .pct → ⟨.containers r.vmid, a⟩ ∈ seen
  containers : r.containers = if level = .both then a.toOption.getD [] else []

/-- What is wrong with a guest: an answer that is of no use, a document that does not go with the
config, or a plan that cannot be made. -/
inductive Wrong (x : External) (ctx : Ctx) (s : Node) (level : Level) (seen : List (Event viewSig))
    (v : ℕ) : Error → Prop where
  | answer {ev : Event viewSig} {e : Error} : ev ∈ seen → Failed x ev v e →
      Wrong x ctx s level seen v e
  | loading {read : Read} {c : Result (Option PveConfig)} {e : Error} : read.vmid = v →
      ReadNow x s read → ⟨.host (.config ctx.node v), c⟩ ∈ seen → loadAnswer ctx read c = .error e →
      Wrong x ctx s level seen v e
  | planning {g : Guest} {e : Error} : level ≠ .docker → Loaded x ctx s v g →
      pctPlan ctx g = .error e → Wrong x ctx s level seen v e

/-- **What each state says** of the guest; `seen` is what was asked and answered. -/
inductive Row.Says (x : External) (ctx : Ctx) (s : Node) (level : Level) (seen : List (Event viewSig))
    (r : Row) : Text → Prop where
  | noDocument : s.docs r.vmid = none → Says x ctx s level seen r "no document"
  | stopped {read : Read} : r.running = false → read.vmid = r.vmid → ReadNow x s read →
      r.policy = some (policySaid read.doc.policy) → Says x ctx s level seen r "stopped"
  | applied {g : Guest} {a : Result (List ContainerRow)} : Loaded x ctx s r.vmid g →
      r.Shows ctx s level g → r.Lists level seen a → Rests ctx s g level →
      (level ≠ .pct → ∀ list, a = .ok list → ∃ c ∈ list, c.state = ("running" : Text)) →
      Says x ctx s level seen r "applied"
  | down {g : Guest} {list : List ContainerRow} : Loaded x ctx s r.vmid g → r.Shows ctx s level g →
      r.Lists level seen (.ok list) → Rests ctx s g level → level ≠ .pct →
      (∀ c ∈ list, c.state ≠ ("running" : Text)) → Says x ctx s level seen r "down"
  | pending {g : Guest} {a : Result (List ContainerRow)} : Loaded x ctx s r.vmid g →
      r.Shows ctx s level g → r.Lists level seen a → (level ≠ .pct → ∃ f, s.facts r.vmid = some f) →
      (level ≠ .docker ∧ (∃ p, pctPlan ctx g = .ok p ∧ p.ops ≠ []) ∨
        level ≠ .pct ∧ ∃ f, s.facts r.vmid = some f ∧ f.digest ≠ g.read.digest) →
      Says x ctx s level seen r "pending"
  | never {g : Guest} {a : Result (List ContainerRow)} : Loaded x ctx s r.vmid g →
      r.Shows ctx s level g → r.Lists level seen a → level ≠ .pct → s.facts r.vmid = none →
      Says x ctx s level seen r "never"
  | error {e : Error} : Wrong x ctx s level seen r.vmid e →
      Says x ctx s level seen r ("error: " ++ e.display)

/-- What a row tells is so, its state and whatever else it has. -/
structure Row.Tells (x : External) (ctx : Ctx) (s : Node) (level : Level) (seen : List (Event viewSig))
    (r : Row) : Prop where
  state : r.Says x ctx s level seen r.state
  policy : ∀ p ∈ r.policy, ∃ read, read.vmid = r.vmid ∧ ReadNow x s read ∧
    p = policySaid read.doc.policy
  pctPending : ∀ n ∈ r.pctPending, ∃ g p, Loaded x ctx s r.vmid g ∧ pctPlan ctx g = .ok p ∧
    n = p.ops.length
  appliedAt : ∀ t ∈ r.appliedAt, ∃ f, s.facts r.vmid = some f ∧ t = f.appliedAt
  template : ∀ t ∈ r.template, ∃ f, s.facts r.vmid = some f ∧ f.template = some t
  containers : r.containers ≠ [] → level = .both ∧ ⟨.containers r.vmid, .ok r.containers⟩ ∈ seen

section

variable {x : External} {ctx : Ctx} {s : Node} {out : List Text} {level : Level} {r : Row} {g : Guest}
  {l : Listed × Text} {read : Read} {tr seen : List (Event viewSig)}

/-- Only a guest at rest is said to be applied or down. -/
theorem Row.Says.rests {state : Text} (h : r.Says x ctx s level seen state)
    (hstate : state = "applied" ∨ state = "down") :
    ∃ g, Loaded x ctx s r.vmid g ∧ Rests ctx s g level := by
  cases h with
  | applied hg _ _ hrest _ => exact ⟨_, hg, hrest⟩
  | down hg _ _ hrest _ _ => exact ⟨_, hg, hrest⟩
  | error _ =>
    have hhead := hstate.imp (congrArg List.head?) (congrArg List.head?)
    exact absurd hhead (by simp)
  | _ => exact absurd hstate (by decide)

/-- What an answer says of a node that stays as it is. -/
def Borne (s : Node) : Event viewSig → Prop
  | ⟨.host c, r⟩ => Effect s c r s
  | _ => True

/-- **A program that only asks (proved)**: it leaves everything as it is, and all it was answered is
so. -/
theorem borne_of_run {α : Type} {p : Prog viewSig α} {a : α} {s' : Node × List Text}
    (h : Only ViewCmd.Asking p) (hrun : Run viewWorld (s, out) p tr a s') :
    s' = (s, out) ∧ ∀ ev ∈ tr, Borne s ev := by
  have hkeeps : wp viewWorld.traced (fun _ _ => True) p
      (fun _ s' => s'.1 = (s, out) ∧ ∀ ev ∈ s'.2, Borne s ev) ((s, out), []) := by
    refine wp_only h (P := fun s' : (Node × List Text) × List (Event viewSig) =>
      s'.1 = (s, out) ∧ ∀ ev ∈ s'.2, Borne s ev) ?_ (fun _ _ _ _ => trivial) ⟨rfl, ?_⟩
    swap
    · exact fun ev hev => absurd hev List.not_mem_nil
    rintro ⟨s₁, l₁⟩ c r ⟨s₂, l₂⟩ hc ⟨rfl, hall⟩ ⟨hr, rfl⟩
    have hstep : s₂ = (s, out) ∧ Borne s ⟨c, r⟩ := by
      cases c with
      | host c =>
        obtain ⟨heffect, hout⟩ := hr
        have hnode : s₂.1 = s := node_of_looking (s := (s, out)) (c := .host c) hc ⟨heffect, hout⟩
        rw [hnode] at heffect
        exact ⟨Prod.ext hnode hout, heffect⟩
      | print text => exact hc.elim
      | named node => exact ⟨hr, trivial⟩
      | containers v => exact ⟨hr, trivial⟩
    refine ⟨hstep.1, fun ev hev => ?_⟩
    rcases List.mem_append.mp hev with hev | hev
    · exact hall ev hev
    · exact List.mem_singleton.mp hev ▸ hstep.2
  have hend := wp_run hkeeps (run_traced (l := []) hrun)
  exact hend

/-! ### The states -/

theorem loaded_of_answer {c : Result (Option PveConfig)} {v : ℕ} (hvmid : read.vmid = v)
    (hread : ReadNow x s read) (hc : Borne s ⟨.host (.config ctx.node v), c⟩)
    (h : loadAnswer ctx read c = .ok g) : g.read = read ∧ Loaded x ctx s v g := by
  subst hvmid
  obtain ⟨config, hconfig, h⟩ := bind_eq_ok.mp h
  obtain ⟨vols, hvols, h⟩ := bind_eq_ok.mp h
  cases h
  refine ⟨rfl, rfl, hread, ?_, withContext_eq_ok.mp hvols⟩
  obtain ⟨conf, hconf, hparse⟩ := bind_eq_ok.mp hconfig
  obtain rfl := hc.2 conf (withContext_eq_ok.mp hconf)
  exact hparse

theorem pending_of_pendingOf {pending : Option ℕ} (h : pendingOf ctx g level = .ok pending) :
    (level ≠ .docker → ∃ p, pctPlan ctx g = .ok p ∧ pending = some p.ops.length) ∧
      (level = .docker → pending = none) := by
  unfold pendingOf at h
  split_ifs at h with hlevel
  · refine ⟨fun _ => ?_, fun hl => absurd hl hlevel⟩
    cases hp : pctPlan ctx g with
    | error e =>
      rw [hp] at h
      cases h
    | ok p =>
      rw [hp] at h
      cases h
      exact ⟨p, rfl, rfl⟩
  · cases h
    exact ⟨fun hl => absurd (not_not.mp hlevel) hl, fun _ => rfl⟩

theorem unplanned_of_pendingOf {e : Error} (h : pendingOf ctx g level = .error e) :
    level ≠ .docker ∧ pctPlan ctx g = .error e := by
  unfold pendingOf at h
  split_ifs at h with hlevel
  refine ⟨hlevel, ?_⟩
  cases hp : pctPlan ctx g with
  | error e' =>
    rw [hp] at h
    cases h
    rfl
  | ok p =>
    rw [hp] at h
    cases h

theorem Row.Shows.of_body {r' : Row} (h : r.Shows ctx s level g) (hb : r'.body = r.body) :
    r'.Shows ctx s level g := by
  obtain ⟨vmid, name, node, running, policy, state, appliedAt, template, pctPending, containers⟩ := r
  obtain ⟨vmid', name', node', running', policy', state', appliedAt', template', pctPending',
    containers'⟩ := r'
  cases hb
  exact ⟨h.running, h.policy, h.planned, h.unplanned, h.recorded, h.unrecorded⟩

/-- What the containers make of the state. -/
theorem state_withContainers (level : Level) (r : Row) (a : Result (List ContainerRow)) :
    (r.state ≠ "applied" → (r.withContainers level a).state = r.state) ∧
      (r.state = "applied" →
        ((r.withContainers level a).state = "down" ∧
            ∃ list, a = .ok list ∧ ∀ c ∈ list, c.state ≠ ("running" : Text)) ∨
          (r.withContainers level a).state = "applied" ∧
            ∀ list, a = .ok list → ∃ c ∈ list, c.state = ("running" : Text)) := by
  cases a with
  | error e => exact ⟨fun _ => rfl, fun h => .inr ⟨h, nofun⟩⟩
  | ok list =>
    have hstate : ∀ r' : Row, r'.state = r.state →
        (if r'.state = "applied" ∧ ¬ list.any (·.state = "running") then { r' with state := "down" }
          else r').state = if r.state = "applied" ∧ ¬ list.any (·.state = "running") then ("down" : Text)
            else r.state := by
      intro r' hr'
      rw [hr']
      split_ifs
      · rfl
      · exact hr'
    have hboth : (r.withContainers level (.ok list)).state
        = if r.state = "applied" ∧ ¬ list.any (·.state = "running") then ("down" : Text)
          else r.state := by
      refine hstate _ ?_
      split_ifs <;> rfl
    rw [hboth]
    refine ⟨fun h => if_neg fun hc => h hc.1, fun h => ?_⟩
    by_cases hany : list.any (·.state = "running") = true
    · refine .inr ⟨by rw [if_neg fun hc => hc.2 hany, h], ?_⟩
      rintro _ ⟨⟩
      obtain ⟨c, hc, hrun⟩ := List.any_eq_true.mp hany
      exact ⟨c, hc, of_decide_eq_true hrun⟩
    · refine .inl ⟨if_pos ⟨h, hany⟩, list, rfl, fun c hc hrun => hany ?_⟩
      exact List.any_eq_true.mpr ⟨c, hc, decide_eq_true hrun⟩

theorem containers_withContainers (level : Level) (r : Row) (a : Result (List ContainerRow))
    (h : r.containers = []) :
    (r.withContainers level a).containers = if level = .both then a.toOption.getD [] else [] := by
  cases a with
  | error e =>
    show r.containers = if level = .both then ([] : List ContainerRow) else []
    rw [h, ite_self]
  | ok list =>
    have hcontainers : ∀ r' : Row, (if r'.state = "applied" ∧ ¬ list.any (·.state = "running") then
        { r' with state := "down" } else r').containers = r'.containers := by
      intro r'
      split_ifs <;> rfl
    have hboth : (r.withContainers level (.ok list)).containers
        = (if level = .both then { r with containers := list } else r).containers := hcontainers _
    rw [hboth]
    split_ifs
    · rfl
    · exact h

/-- Containers are listed at the level `both`, from an answer. -/
theorem Row.Lists.told {a : Result (List ContainerRow)} (h : r.Lists level seen a)
    (hne : r.containers ≠ []) : level = .both ∧ ⟨.containers r.vmid, .ok r.containers⟩ ∈ seen := by
  have hcontainers := h.containers
  by_cases hlevel : level = .both
  · rw [if_pos hlevel] at hcontainers
    cases a with
    | error e => exact absurd hcontainers hne
    | ok list =>
      rw [show r.containers = list from hcontainers]
      exact ⟨hlevel, h.asked (by rw [hlevel]; decide)⟩
  · rw [if_neg hlevel] at hcontainers
    exact absurd hcontainers hne

/-- A row of an error tells what was read before it. -/
theorem tells_fail {e : Error} (hwrong : Wrong x ctx s level seen r.vmid e) (hpolicy : ∀ p ∈ r.policy, ∃ read, read.vmid = r.vmid ∧
      ReadNow x s read ∧ p = policySaid read.doc.policy)
    (hpending : ∀ n ∈ r.pctPending, ∃ g p, Loaded x ctx s r.vmid g ∧ pctPlan ctx g = .ok p ∧
      n = p.ops.length) (happlied : r.appliedAt = none) (htemplate : r.template = none)
    (hcontainers : r.containers = []) : (r.fail e).Tells x ctx s level seen where
  state := .error hwrong
  policy := hpolicy
  pctPending := hpending
  appliedAt t ht := by
    rw [show (r.fail e).appliedAt = none from happlied] at ht
    cases ht
  template t ht := by
    rw [show (r.fail e).template = none from htemplate] at ht
    cases ht
  containers hne := absurd hcontainers hne

/-- A row of a guest that is loaded tells what the guest is. -/
theorem tells_of_shows (hg : Loaded x ctx s r.vmid g) (hshows : r.Shows ctx s level g)
    {a : Result (List ContainerRow)} (hlists : r.Lists level seen a)
    (hstate : r.Says x ctx s level seen r.state) : r.Tells x ctx s level seen where
  state := hstate
  containers := hlists.told
  policy p hp := by
    rw [hshows.policy] at hp
    exact ⟨g.read, hg.vmid, hg.read, (Option.some.inj hp).symm⟩
  pctPending n hn := by
    by_cases hlevel : level = .docker
    · rw [hshows.unplanned hlevel] at hn
      cases hn
    · obtain ⟨p, hp, hcount⟩ := hshows.planned hlevel
      rw [hcount] at hn
      exact ⟨g, p, hg, hp, (Option.some.inj hn).symm⟩
  appliedAt t ht := by
    by_cases hlevel : level = .pct
    · rw [(hshows.unrecorded hlevel).1] at ht
      cases ht
    · rw [(hshows.recorded hlevel).1] at ht
      obtain ⟨f, hf, rfl⟩ := Option.map_eq_some_iff.mp ht
      exact ⟨f, hf, rfl⟩
  template t ht := by
    by_cases hlevel : level = .pct
    · rw [(hshows.unrecorded hlevel).2] at ht
      cases ht
    · rw [(hshows.recorded hlevel).2] at ht
      obtain ⟨f, hf, hft⟩ := Option.bind_eq_some_iff.mp ht
      exact ⟨f, hf, hft⟩

/-- A count of operations is one of the plan's. -/
theorem Row.Shows.counted (h : r.Shows ctx s level g) (hpos : 0 < r.pctPending.getD 0) :
    level ≠ .docker ∧ ∃ p, pctPlan ctx g = .ok p ∧ p.ops ≠ [] := by
  have hl : level ≠ .docker := by
    intro hl
    rw [h.unplanned hl] at hpos
    exact absurd hpos (lt_irrefl 0)
  obtain ⟨p, hp, hn⟩ := h.planned hl
  rw [hn] at hpos
  exact ⟨hl, p, hp, List.ne_nil_of_length_pos hpos⟩

theorem Row.Shows.uncounted (h : r.Shows ctx s level g) (hzero : ¬ 0 < r.pctPending.getD 0)
    (hl : level ≠ .docker) : ∃ p, pctPlan ctx g = .ok p ∧ p.ops = [] := by
  obtain ⟨p, hp, hn⟩ := h.planned hl
  rw [hn] at hzero
  exact ⟨p, hp, List.length_eq_zero_iff.mp (Nat.eq_zero_of_not_pos hzero)⟩

/-- The state before the containers are looked at. -/
theorem state_withPending (r : Row) (d : Text) (facts : Option Facts) :
    (r.withFacts d facts).withPending.state = match facts with
      | none => ("never" : Text)
      | some f => if f.digest = d ∧ ¬ 0 < r.pctPending.getD 0 then "applied" else "pending" := by
  cases facts with
  | none =>
    unfold Row.withPending
    rw [if_neg]
    · rfl
    · exact fun h => absurd h.1 (by decide : ("never" : Text) ≠ "applied")
  | some f =>
    have hfirst : (r.withFacts d (some f)).state
        = if f.digest = d then ("applied" : Text) else "pending" := rfl
    have hcount : (r.withFacts d (some f)).pctPending = r.pctPending := rfl
    have hne : ("pending" : Text) ≠ "applied" := by decide
    show _ = if f.digest = d ∧ ¬ 0 < r.pctPending.getD 0 then ("applied" : Text) else "pending"
    unfold Row.withPending
    rw [hfirst, hcount]
    by_cases hd : f.digest = d
    · rw [if_pos hd]
      by_cases hpos : 0 < r.pctPending.getD 0
      · rw [if_pos ⟨rfl, hpos⟩, if_neg fun h => h.2 hpos]
      · rw [if_neg fun h => hpos h.2, hfirst, if_pos hd, if_pos ⟨hd, hpos⟩]
    · rw [if_neg hd, if_neg fun h => hne h.1, hfirst, if_neg hd, if_neg fun h => hd h.1]

/-- **What the facts, the plan and the containers say (proved)**, of a row that has them. -/
theorem says_docker {r₀ : Row} {list : Result (List ContainerRow)} (hg : Loaded x ctx s r.vmid g)
    (hlevel : level ≠ .pct) (hr : r = (r₀.withFacts g.read.digest (s.facts r.vmid)).withPending.withContainers
      level list) (hshows : r.Shows ctx s level g) (hpending : r₀.pctPending = r.pctPending)
    (hlists : r.Lists level seen list) : r.Says x ctx s level seen r.state := by
  obtain ⟨hother, happlied⟩ :=
    state_withContainers level (r₀.withFacts g.read.digest (s.facts r.vmid)).withPending list
  have hbefore := state_withPending r₀ g.read.digest (s.facts r.vmid)
  rw [← hr] at hother happlied
  cases hf : s.facts r.vmid with
  | none =>
    rw [hf] at hother hbefore
    dsimp only at hbefore
    rw [hother (by rw [hbefore]; decide), hbefore]
    exact .never hg hshows hlists hlevel hf
  | some f =>
    rw [hf] at hother happlied hbefore
    dsimp only at hbefore
    rw [hpending] at hbefore
    by_cases hrests : f.digest = g.read.digest ∧ ¬ 0 < r.pctPending.getD 0
    · rw [if_pos hrests] at hbefore
      have hrest : Rests ctx s g level := by
        refine ⟨hshows.uncounted hrests.2, fun _ => ⟨f, ?_, hrests.1⟩⟩
        rw [hg.vmid]
        exact hf
      rcases happlied hbefore with ⟨hdown, cs, rfl, hcs⟩ | ⟨happlied, hup⟩
      · rw [hdown]
        exact .down hg hshows hlists hrest hlevel hcs
      · rw [happlied]
        exact .applied hg hshows hlists hrest fun _ => hup
    · rw [if_neg hrests] at hbefore
      rw [hother (by rw [hbefore]; decide), hbefore]
      refine .pending hg hshows hlists (fun _ => ⟨f, hf⟩) ?_
      by_cases hd : f.digest = g.read.digest
      · exact .inl (hshows.counted (not_not.mp fun h => hrests ⟨hd, h⟩))
      · exact .inr ⟨hlevel, f, hf, hd⟩

/-- What the facts add to a row. -/
theorem shows_withFacts {d : Text} (hlevel : level ≠ .pct) (hrunning : r.running = true)
    (hpolicy : r.policy = some (policySaid g.read.doc.policy))
    (hplanned : level ≠ .docker → ∃ p, pctPlan ctx g = .ok p ∧ r.pctPending = some p.ops.length)
    (hunplanned : level = .docker → r.pctPending = none) (happlied : r.appliedAt = none)
    (htemplate : r.template = none) : (r.withFacts d (s.facts r.vmid)).Shows ctx s level g := by
  cases hf : s.facts r.vmid with
  | none =>
    refine ⟨hrunning, hpolicy, hplanned, hunplanned, fun _ => ?_, fun hl => absurd hl hlevel⟩
    show r.appliedAt = (s.facts r.vmid).map _ ∧ r.template = (s.facts r.vmid).bind _
    rw [hf, happlied, htemplate]
    exact ⟨rfl, rfl⟩
  | some f =>
    refine ⟨hrunning, hpolicy, hplanned, hunplanned, fun _ => ?_, fun hl => absurd hl hlevel⟩
    show some f.appliedAt = (s.facts r.vmid).map _ ∧ f.template = (s.facts r.vmid).bind _
    rw [hf]
    exact ⟨rfl, rfl⟩

/-- The row of the level `pct`. -/
theorem tells_of_pct {p : Plan} (hg : Loaded x ctx s l.1.vmid g) (hrun : l.1.running = true)
    (hlevel : level = .pct) (hplan : pctPlan ctx g = .ok p) :
    ({ Row.documented ctx l g.read with
        pctPending := some p.ops.length
        state := if some p.ops.length = some 0 then "applied" else "pending" } : Row).Tells x ctx s level
      seen := by
  have hdocker : level ≠ .docker := by
    rw [hlevel]
    decide
  have hshows : ∀ state : Text, ({ Row.documented ctx l g.read with
      pctPending := some p.ops.length, state } : Row).Shows ctx s level g := fun state =>
    ⟨hrun, rfl, fun _ => ⟨p, hplan, rfl⟩, fun hl => absurd hl hdocker, fun hl => absurd hlevel hl,
      fun _ => ⟨rfl, rfl⟩⟩
  have hlists : ∀ state : Text, ({ Row.documented ctx l g.read with
      pctPending := some p.ops.length, state } : Row).Lists level seen (.ok []) := fun state =>
    ⟨fun hl => absurd hlevel hl, (ite_self _).symm⟩
  refine tells_of_shows hg (hshows _) (hlists _) ?_
  by_cases hops : p.ops = []
  · have hzero : some p.ops.length = some 0 := by rw [hops]; rfl
    rw [if_pos hzero]
    exact .applied hg (hshows _) (hlists _) ⟨fun _ => ⟨p, hplan, hops⟩, fun hl => absurd hlevel hl⟩
      fun hl => absurd hlevel hl
  · have hne : ¬ some p.ops.length = some 0 := fun h =>
      hops (List.length_eq_zero_iff.mp (Option.some.inj h))
    rw [if_neg hne]
    exact .pending hg (hshows _) (hlists _) (fun hl => absurd hlevel hl) (.inl ⟨hdocker, p, hplan, hops⟩)

/-- The row of a level that looks at docker. -/
theorem tells_of_docker {r₀ : Row} {list : Result (List ContainerRow)} (hg : Loaded x ctx s r₀.vmid g)
    (hlevel : level ≠ .pct) (hfirst : (r₀.withFacts g.read.digest (s.facts r₀.vmid)).Shows ctx s level g)
    (hno : r₀.containers = []) (hlist : ⟨.containers r₀.vmid, list⟩ ∈ seen) :
    ((r₀.withFacts g.read.digest (s.facts r₀.vmid)).withPending.withContainers level list).Tells x ctx s
      level seen := by
  have hbody : ((r₀.withFacts g.read.digest (s.facts r₀.vmid)).withPending.withContainers level list).body
      = (r₀.withFacts g.read.digest (s.facts r₀.vmid)).body := Row.body_docker _ list
  have hempty : (r₀.withFacts g.read.digest (s.facts r₀.vmid)).withPending.containers = [] := by
    unfold Row.withPending
    cases s.facts r₀.vmid <;> split_ifs <;> exact hno
  have hcontainers := containers_withContainers level _ list hempty
  have hkept : (r₀.withFacts g.read.digest (s.facts r₀.vmid)).vmid = r₀.vmid ∧
      (r₀.withFacts g.read.digest (s.facts r₀.vmid)).pctPending = r₀.pctPending := by
    cases s.facts r₀.vmid <;> exact ⟨rfl, rfl⟩
  generalize hr : (r₀.withFacts g.read.digest (s.facts r₀.vmid)).withPending.withContainers level list
    = r at hbody hcontainers
  have hat : r.vmid = r₀.vmid := (congrArg Row.vmid hbody).trans hkept.1
  have hpending : r₀.pctPending = r.pctPending := ((congrArg Row.pctPending hbody).trans hkept.2).symm
  have hshows := hfirst.of_body hbody
  have hg' : Loaded x ctx s r.vmid g := hat ▸ hg
  rw [← hat] at hr
  have hlists : r.Lists level seen list := ⟨fun _ => hat ▸ hlist, hcontainers⟩
  exact tells_of_shows hg' hshows hlists (says_docker hg' hlevel hr.symm hshows hpending hlists)

/-- The row of a guest that runs. -/
theorem tells_of_judged {c : Result (Option PveConfig)} (hvmid : read.vmid = l.1.vmid)
    (hread : ReadNow x s read) (hrun : l.1.running = true)
    (hc : Borne s ⟨.host (.config ctx.node l.1.vmid), c⟩)
    (h : Judged ctx level l read (loadAnswer ctx read c) tr r) (hall : ∀ ev ∈ tr, Borne s ev)
    (hasked : ⟨.host (.config ctx.node l.1.vmid), c⟩ ∈ seen) (hseen : tr ⊆ seen) :
    r.Tells x ctx s level seen := by
  have hpolicy : ∀ p ∈ some (policySaid read.doc.policy), ∃ read : Read, read.vmid = l.1.vmid ∧
      ReadNow x s read ∧ p = policySaid read.doc.policy :=
    fun p hp => ⟨read, hvmid, hread, (Option.some.inj hp).symm⟩
  have hloaded : ∀ g, loadAnswer ctx read c = .ok g → g.read = read ∧ Loaded x ctx s l.1.vmid g :=
    fun g hg => loaded_of_answer hvmid hread hc hg
  generalize hanswer : loadAnswer ctx read c = loaded at h hloaded
  cases h with
  | unloaded => exact tells_fail (.loading hvmid hread hasked hanswer) hpolicy nofun rfl rfl rfl
  | unplanned hp =>
    obtain ⟨-, hg⟩ := hloaded _ rfl
    obtain ⟨hlevel, hplan⟩ := unplanned_of_pendingOf hp
    exact tells_fail (.planning hlevel hg hplan) hpolicy nofun rfl rfl rfl
  | @unrecorded g pending e hlevel hp =>
    obtain ⟨-, hg⟩ := hloaded g rfl
    have hwrong : Wrong x ctx s level seen l.1.vmid e := .answer (hseen List.mem_cons_self) .facts
    refine tells_fail hwrong hpolicy (fun n hn => ?_) rfl rfl rfl
    obtain ⟨hplanned, hunplanned⟩ := pending_of_pendingOf hp
    by_cases hl : level = .docker
    · rw [show pending = none from hunplanned hl] at hn
      cases hn
    · obtain ⟨p, hp, hcount⟩ := hplanned hl
      rw [show pending = some p.ops.length from hcount] at hn
      exact ⟨g, p, hg, hp, (Option.some.inj hn).symm⟩
  | @pct g pending hlevel hp =>
    obtain ⟨rfl, hg⟩ := hloaded g rfl
    obtain ⟨p, hplan, rfl⟩ := (pending_of_pendingOf hp).1 (by rw [hlevel]; decide)
    exact tells_of_pct hg hrun hlevel hplan
  | @docker g pending facts list hlevel hp =>
    obtain ⟨rfl, hg⟩ := hloaded g rfl
    obtain ⟨hplanned, hunplanned⟩ := pending_of_pendingOf hp
    obtain rfl : facts = s.facts l.1.vmid := (hall _ List.mem_cons_self).2 facts rfl
    have hfirst : (({ Row.documented ctx l g.read with pctPending := pending } : Row).withFacts
        g.read.digest (s.facts l.1.vmid)).Shows ctx s level g :=
      shows_withFacts hlevel hrun rfl hplanned hunplanned rfl rfl
    exact tells_of_docker hg hlevel hfirst rfl (hseen (List.mem_cons_of_mem _ List.mem_cons_self))

/-- **One row (proved)**: it tells what is so. -/
theorem tells_of_made (h : Row.Made x ctx level l tr r) (hall : ∀ ev ∈ tr, Borne s ev)
    (hseen : tr ⊆ seen) : r.Tells x ctx s level seen := by
  have hread : ∀ {a : Result Output} {read : Read}, Borne s ⟨.host (.metaGet l.1.vmid), a⟩ →
      (a >>= readOutput x l.1.vmid) = .ok (some read) → read.vmid = l.1.vmid ∧ ReadNow x s read := by
    intro a read ha h
    obtain ⟨out, rfl, hout⟩ := bind_eq_ok.mp h
    have hd := decoded_of_readOutput hout
    refine ⟨hd.vmid, ?_, hd.digest, hd.doc⟩
    rw [hd.vmid, hd.text]
    exact (ha.2 out rfl).1 hd.status
  cases h with
  | unread ha =>
    exact tells_fail (.answer (hseen List.mem_cons_self) (.document ha)) nofun nofun rfl rfl rfl
  | @bare a ha =>
    have hnone : s.docs l.1.vmid = none := by
      obtain ⟨out, rfl, hout⟩ := bind_eq_ok.mp ha
      refine ((hall _ List.mem_cons_self).2 out rfl).2 ?_
      unfold readOutput at hout
      split_ifs at hout with h0 h2
      · obtain ⟨_, -, hbad⟩ := bind_eq_ok.mp hout
        cases hbad
      · exact h2
      · exact absurd hout bail_ne_ok
    exact ⟨.noDocument hnone, nofun, nofun, nofun, nofun, fun hne => absurd rfl hne⟩
  | @stopped a read ha hstop =>
    obtain ⟨hvmid, hnow⟩ := hread (hall _ List.mem_cons_self) ha
    exact ⟨.stopped hstop hvmid hnow rfl, fun p hp => ⟨read, hvmid, hnow, (Option.some.inj hp).symm⟩,
      nofun, nofun, nofun, fun hne => absurd rfl hne⟩
  | @judged a c read tr r ha hrun hj =>
    obtain ⟨hvmid, hnow⟩ := hread (hall _ List.mem_cons_self) ha
    exact tells_of_judged hvmid hnow hrun (hall _ (List.mem_cons_of_mem _ List.mem_cons_self)) hj
      (fun ev hev => hall ev (List.mem_cons_of_mem _ (List.mem_cons_of_mem _ hev)))
      (hseen (List.mem_cons_of_mem _ List.mem_cons_self))
      fun ev hev => hseen (List.mem_cons_of_mem _ (List.mem_cons_of_mem _ hev))

/-- **What `status` says is so (proved)**: it changes nothing, and each row tells what is true of the
guest. -/
theorem rows_tell {vmid : Option ℕ} {s' : Node × List Text} {rs : List Row}
    (h : Run viewWorld (s, out) (rows x ctx vmid level).run seen (.ok rs) s') :
    s' = (s, out) ∧ ∀ r ∈ rs, r.Tells x ctx s level seen := by
  obtain ⟨rfl, hall⟩ := borne_of_run only_rows h
  refine ⟨rfl, fun r hr => ?_⟩
  obtain ⟨tr₁, ls, _, rfl, -, hrest⟩ := yields_bind_ok.mp (yields_of_run h)
  obtain ⟨tr₂, rs', tr₃, rfl, hrows, hret⟩ := yields_seq.mp hrest
  obtain ⟨rfl, hrs⟩ := yields_ret.mp hret
  obtain rfl := Except.ok.inj hrs
  obtain ⟨-, -, hmade, -⟩ := yields_rowsOf hrows
  obtain ⟨l, -, part, hpart, hm⟩ := hmade r hr
  have hsub : ∀ ev ∈ part, ev ∈ tr₁ ++ (tr₂ ++ []) := fun ev hev =>
    List.mem_append_right _ (List.mem_append_left _ (hpart.subset hev))
  exact tells_of_made hm (fun ev hev => hall ev (hsub ev hev)) hsub

end

/-! ### The loop -/

/-- What the loop issues on a guest that it leaves alone. -/
def Cmd.Peeks (vmid : ℕ) : Cmd → Prop
  | .report _ => True
  | .config _ v | .readFacts v | .lock v _ | .unlock v => v = vmid
  | _ => False

section

variable {x : External} {ctx : Ctx} {s : Node} {vmid : ℕ} {g : Guest}

theorem peeks_loadWith {read : Read} (h : read.vmid = vmid) :
    Only (Cmd.Peeks vmid) (loadWith ctx read).run := by
  have hconfig : (Cmd.config ctx.node read.vmid).Peeks vmid := h
  refine only_bind (only_bind (only_issue hconfig _) fun v => ?_) fun _ =>
    only_bind (only_ofExcept _) fun _ => only_pure _
  cases v with
  | none => exact only_ofExcept _
  | some conf => exact only_ofExcept _

/-- The calls of a plan of none. -/
theorem wp_pctApplyGuest_rests {W : World sig Node} {I : Node → Cmd → Prop} {E : Error → Node → Prop}
    {p : Plan} (hp : pctPlan ctx g = .ok p) (hops : p.ops = []) (hsay : ∀ s msg, I s (.report msg))
    (hkeep : ∀ s msg s', W.reply s (.report msg) () s' → s' = s) :
    wp W I (pctApplyGuest ctx g).run (Ends (fun n s' => n = 0 ∧ s' = s) E) s := by
  have hreport : ∀ msg, wp W I (report msg).run (Ends (fun _ s' => s' = s) E) s := fun msg =>
    ⟨hsay s msg, fun _ s' hs' => hkeep s msg s' hs'⟩
  rw [pctApplyGuest, hp, wp_bind, wp_ofExcept, ends_ok, wp_bind]
  have hnotes : wp W I (Fallible.forEach (fun n => report ("note: " ++ n)) p.notes).run
      (Ends (fun _ s' => s' = s) E) s := by
    refine wp_forEach _ (fun _ _ s' => s' = s) ?_ p.notes [] s rfl
    rintro done n rest _ rfl
    exact hreport _
  refine wp_ends_mono hnotes ?_ fun _ _ h => h
  rintro _ _ rfl
  rw [if_pos hops, wp_bind]
  refine wp_ends_mono (hreport _) ?_ fun _ _ h => h
  rintro _ _ rfl
  exact ⟨rfl, rfl⟩

/-- The pct half of a guest with nothing planned. -/
theorem wp_pctHalf_rests {W : World sig Node} {I : Node → Cmd → Prop} {E : Error → Node → Prop}
    {p : Plan} (hp : pctPlan ctx g = .ok p) (hops : p.ops = []) (hsay : ∀ s msg, I s (.report msg))
    (hkeep : ∀ s msg s', W.reply s (.report msg) () s' → s' = s) :
    wp W I (pctHalf ctx g).run (Ends (fun g' s' => g' = g ∧ s' = s) E) s := by
  unfold pctHalf
  split_ifs
  · rw [wp_bind]
    refine wp_ends_mono (wp_pctApplyGuest_rests hp hops hsay hkeep) ?_ fun _ _ h => h
    rintro _ _ ⟨rfl, rfl⟩
    exact ⟨rfl, rfl⟩
  · exact ⟨rfl, rfl⟩

/-- **The attempt for a guest at rest (proved)**: it looks, and that is all. -/
theorem wp_attempt_rests (hg : Loaded x ctx s vmid g) (hrest : Rests ctx s g .both) :
    wp nodeWorld (fun _ c => c.Peeks vmid) (attempt x ctx vmid g.read).run (fun _ s' => s' = s) s := by
  refine wp_withLock (show Cmd.Peeks vmid (.lock vmid 60) from rfl)
    (fun _ => show Cmd.Peeks vmid (.unlock vmid) from rfl) ?_ fun _ => rfl
  rw [← ends_eta (fun _ s' => s' = s), wp_bind]
  refine wp_ends_mono (wp_of_only (peeks_loadWith hg.vmid) (fun _ _ h => h)
    (wp_loadWith (I := Unasked) fun _ _ _ => trivial)) ?_ fun _ _ h => h
  rintro g' s' ⟨rfl, hsame, hg'⟩
  obtain rfl : g' = g := loaded_unique (congrArg Read.vmid hsame) hg.read hg.loaded (hsame ▸ hg.read) hg'
  obtain ⟨p, hp, hops⟩ := hrest.plan (by decide)
  rw [wp_bind]
  refine wp_ends_mono (wp_pctHalf_rests hp hops (fun _ _ => trivial) fun _ _ _ h => h) ?_ fun _ _ h => h
  rintro g' _ ⟨rfl, rfl⟩
  have hvmid : g'.vmid = vmid := hg.loaded.vmid.trans hg.vmid
  rw [dockerHalf, wp_bind, wp_issue]
  refine ⟨hvmid, fun r s₁ hr => ?_⟩
  obtain ⟨rfl, hfacts⟩ := hr
  cases r with
  | error e => exact rfl
  | ok facts =>
    obtain rfl := hfacts facts rfl
    obtain ⟨f, hf, hd⟩ := hrest.named (by decide)
    have hany : (s₁.facts g'.vmid).any (·.digest = g'.read.digest) = true := by
      rw [hg.loaded.vmid, hf]
      exact decide_eq_true hd
    dsimp only [id, ends_ok]
    rw [if_neg (by simp [hany]), wp_pure]

/-- **The loop agrees with `status` (proved)**: where a row of both levels says that the guest is applied
or down, the attempt for its document, as things are, issues nothing but looks. -/
theorem loop_agrees_with_status {out : List Text} {only : Option ℕ} {s' : Node × List Text}
    {seen : List (Event viewSig)} {rs : List Row}
    (h : Run viewWorld (s, out) (rows x ctx only .both).run seen (.ok rs) s') :
    ∀ r ∈ rs, r.state = "applied" ∨ r.state = "down" → ∃ read, read.vmid = r.vmid ∧ ReadNow x s read ∧
      ∀ tr a s₁, Run nodeWorld s (attempt x ctx r.vmid read).run tr a s₁ →
        s₁ = s ∧ ∀ e ∈ tr, e.1.Peeks r.vmid := by
  intro r hr hstate
  have htells := rows_tell h
  obtain ⟨g, hg, hrest⟩ := (htells.2 r hr).state.rests hstate
  refine ⟨g.read, hg.vmid, hg.read, fun tr a s₁ hrun => ?_⟩
  have hwp := wp_attempt_rests hg hrest
  have hend := wp_run hwp hrun
  exact ⟨hend, wp_events hwp hrun⟩

end

/-! ### Four guests -/

/-- A template, a guest that is not selected and has no document, one that is applied, and one whose
document is no YAML. -/
def fourListed : List Listed :=
  [⟨101, true, ["compose"], true⟩, ⟨103, true, [], false⟩, ⟨105, true, ["compose"], false⟩,
    ⟨107, true, ["compose"], false⟩]

def fourNode : Node :=
  { afterDocker "nginx" false webNode with
    docs := fun v => if v = 105 then some (webText "nginx") else if v = 107 then some "spec: [" else none }

def fourShown (s : Node × List Text) (c : ViewCmd) : c.Answer × (Node × List Text) :=
  Script.shown { now := 0, listed := fourListed, upFails := false } [⟨"web", "web-1", "running", "Up"⟩]
    s c

def taggedCtx : Ctx := { webCtx with tag := some "compose" }

def fourRun (ctx : Ctx) : Result (List Row) :=
  ((rows webExternal ctx none .both).run.interpret fourShown (fourNode, [])).1

def fourTrace (ctx : Ctx) : List (Event viewSig) :=
  (rows webExternal ctx none .both).run.trace fourShown (fourNode, [])

theorem four_run {ctx : Ctx} {rs : List Row} (h : fourRun ctx = .ok rs) :
    Run viewWorld (fourNode, []) (rows webExternal ctx none .both).run (fourTrace ctx) (.ok rs)
      ((rows webExternal ctx none .both).run.interpret fourShown (fourNode, [])).2 := by
  rw [← h]
  exact run_trace (Script.shown_reply _ _) _ _

/-- The guest whose tag is missing. -/
def pendingRow : Row where
  vmid := 105
  name := "web"
  node := "pve"
  running := true
  policy := some "pct=auto docker=auto pull=manual"
  state := "pending"
  appliedAt := some "2026-01-01T00:00:00+00:00"
  template := none
  pctPending := some 1
  containers := [⟨"web", "web-1", "running", "Up"⟩]

/-- The guest whose document cannot be read. -/
def garbledRow (ctx : Ctx) : Row :=
  { Row.listed ctx (⟨107, true, ["compose"], false⟩, "web") with
    state := "error: guest 107: bad compose document: compose subtree: not read here" }

theorem pending_run : fourRun taggedCtx = .ok [pendingRow, garbledRow taggedCtx] := by decide +kernel

theorem four_reads : docReads (fourTrace taggedCtx) = [(103, .ok (storeOutput none)),
    (105, .ok (storeOutput (some (webText "nginx")))), (107, .ok (storeOutput (some "spec: [")))] := by
  decide +kernel

/-- The error's row is the second of two. -/
theorem rows_once_four : ∃ r ∈ [pendingRow, garbledRow taggedCtx], r.vmid = 107 ∧
    r.state = "error: guest 107: bad compose document: compose subtree: not read here" := by
  obtain ⟨a, rest, htr, hlist, hok⟩ := rows_once (yields_of_run (four_run pending_run))
  have hreads : docReads rest = docReads (fourTrace taggedCtx) := by
    rw [htr]
    rfl
  cases a with
  | error e => cases (hlist e rfl).1
  | ok ls =>
    obtain ⟨rs, hrs, -, -, hfailed⟩ := hok ls rfl
    rw [← Except.ok.inj hrs] at hfailed
    have hmem : (⟨.host (.metaGet 107), .ok (storeOutput (some "spec: ["))⟩ : Event viewSig) ∈ rest := by
      refine mem_of_docReads ?_
      rw [hreads, four_reads]
      exact List.mem_cons_of_mem _ (List.mem_cons_of_mem _ List.mem_cons_self)
    have hbad : Failed webExternal ⟨.host (.metaGet 107), .ok (storeOutput (some "spec: ["))⟩ 107
        ⟨["guest 107: bad compose document", "compose subtree", "not read here"]⟩ := .document rfl
    exact hfailed _ hmem _ _ hbad

/-- The pending row has something to do. -/
theorem rows_tell_four :
    pendingRow.Tells webExternal taggedCtx fourNode .both (fourTrace taggedCtx) :=
  (rows_tell (four_run pending_run)).2 pendingRow List.mem_cons_self

def appliedRow : Row := { pendingRow with state := "applied", pctPending := some 0 }

def untaggedRow : Row :=
  { Row.listed webCtx (⟨103, true, [], false⟩, "web") with state := "no document" }

theorem applied_run : fourRun webCtx = .ok [untaggedRow, appliedRow, garbledRow webCtx] := by
  decide +kernel

/-- Where no tag is asked for, the guest is applied, and left alone. -/
theorem loop_agrees_with_status_four : ∃ read, read.vmid = 105 ∧ ReadNow webExternal fourNode read ∧
    ∀ tr a s₁, Run nodeWorld fourNode (attempt webExternal webCtx 105 read).run tr a s₁ →
      s₁ = fourNode ∧ ∀ e ∈ tr, e.1.Peeks 105 :=
  loop_agrees_with_status (four_run applied_run) appliedRow
    (List.mem_cons_of_mem _ List.mem_cons_self) (.inl rfl)

end PveCompose
