import PveCompose.Applied
import PveCompose.Drift
import PveCompose.Session
import PveCompose.Views

/-!
# What `diff` says and what an apply does (`ops/diff.rs`, `ops/apply.rs`)

* `wp_diff` — what is printed, and that nothing else happens;
* `wp_pctApplyGuest_calls` — **the rule of a pct half**, from no call made to all of the plan made;
* `writtenIn_docker` — **the docker half**: only the file the guest should have is written, over another;
* `diff_foretells_apply` — **PROVED**: the operations printed are those an apply runs, the text the
  file is compared with is the only one an apply writes, and it writes it only if it was said to differ.
-/

namespace PveCompose

open Programs

/-! ### What is printed -/

/-- What is printed of a plan. -/
def planSaid (p : Plan) : List Text :=
  p.notes.map (fun n => ("note: " ++ n : Text) ++ "\n") ++
    if p.ops = [] then [("pct: up to date" : Text) ++ "\n"]
    else p.ops.map fun op => ("pct: " ++ op.display : Text) ++ "\n"

/-- What `diff` prints. -/
def diffSaid (s : Node) (g : Guest) (p : Plan) (want : Text) : List Text :=
  planSaid p ++ (factsSaid g.read.digest (s.facts g.vmid) ++ "\n") ::
    composeSaid ((s.compose g.vmid).getD []) want

/-- The guest as it is now, its plan, and the file it should have. -/
structure Foreseen (x : External) (ctx : Ctx) (vmid : ℕ) (s : Node) (g : Guest) (p : Plan)
    (want : Text) : Prop where
  vmid : g.read.vmid = vmid
  read : ReadNow x s g.read
  loaded : LoadedNow ctx s g
  plan : pctPlan ctx g = .ok p
  render : renderGuest x ctx g = .ok want

section

variable {x : External} {ctx : Ctx} {vmid : ℕ} {s : Node} {out : List Text} {g : Guest} {p : Plan}
  {want : Text}

/-- A program of an apply, run in a view. -/
theorem wp_viewHost {α : Type} {p : M α} {Q : α → Node → Prop} {E : Error → Node → Prop}
    (h : wp nodeWorld (fun _ _ => True) p.run (Ends Q E) s) :
    wp viewWorld (fun _ _ => True) (View.host p).run
      (Ends (fun a s' => Q a s'.1 ∧ s'.2 = out) fun e s' => E e s'.1 ∧ s'.2 = out) (s, out) := by
  show wp viewWorld _ (Prog.bind _ _) _ _
  rw [wp_bindProg]
  refine wp_mono (wp_embed_of (R := fun t s => s = (t, out)) (fun _ _ _ _ h => h) ?_ h rfl) ?_
  · rintro t _ c r ⟨s', out'⟩ rfl ⟨heffect, rfl⟩
    exact ⟨s', heffect, rfl⟩
  · rintro r _ ⟨s', rfl, hend⟩
    cases r with
    | ok a => exact ⟨hend, rfl⟩
    | error e => exact ⟨hend, rfl⟩

theorem wp_println {line : Text} {Q : Unit → Node × List Text → Prop}
    {E : Error → Node × List Text → Prop} (h : Q () (s, out ++ [line ++ "\n"])) :
    wp viewWorld (fun _ _ => True) (View.println line).run (Ends Q E) (s, out) := by
  refine ⟨trivial, fun _ s' hs' => ?_⟩
  have hs : s' = (s, out ++ [line ++ "\n"]) := hs'
  rw [hs]
  exact h

/-- Lines printed one after another. -/
theorem wp_printAll {γ : Type} {f : γ → Text} {xs : List γ} {E : Error → Node × List Text → Prop} :
    wp viewWorld (fun _ _ => True) (Fallible.forEach (fun a => View.print (f a)) xs).run
      (Ends (fun _ s' => s' = (s, out ++ xs.map f)) E) (s, out) := by
  refine wp_forEach _ (fun done _ s' => s' = (s, out ++ done.map f)) ?_ xs [] _ (by simp)
  rintro done a rest _ rfl
  refine ⟨trivial, fun _ s' hs' => ?_⟩
  have hs : s' = (s, (out ++ done.map f) ++ [f a]) := hs'
  rw [hs]
  show (s, _) = (s, _)
  simp

theorem wp_pctDiffGuest :
    wp viewWorld (fun _ _ => True) (pctDiffGuest ctx g).run
      (Ends (fun _ s' => ∃ p, pctPlan ctx g = .ok p ∧ s' = (s, out ++ planSaid p))
        fun _ s' => s' = (s, out)) (s, out) := by
  rw [pctDiffGuest, wp_bind, wp_ofExcept]
  cases hp : pctPlan ctx g with
  | error e => exact rfl
  | ok p =>
    rw [ends_ok, wp_bind]
    refine wp_ends_mono wp_printAll ?_ fun _ _ h => h
    rintro _ _ rfl
    split_ifs with hops
    · exact wp_println ⟨p, rfl, by rw [planSaid, if_pos hops, ← List.append_assoc]⟩
    · refine wp_ends_mono wp_printAll ?_ fun _ _ h => h
      rintro _ _ rfl
      exact ⟨p, rfl, by rw [planSaid, if_neg hops, ← List.append_assoc]⟩

theorem wp_dockerDiffGuest :
    wp viewWorld (fun _ _ => True) (dockerDiffGuest x ctx g).run
      (Ends (fun _ s' => ∃ want, renderGuest x ctx g = .ok want ∧
        s' = (s, out ++ (factsSaid g.read.digest (s.facts g.vmid) ++ "\n") ::
          composeSaid ((s.compose g.vmid).getD []) want)) fun _ s' => s'.1 = s) (s, out) := by
  have hread : ∀ {α : Type} {c : Cmd} (f : c.Answer → Result α), c.Plain →
      wp nodeWorld (fun _ _ => True) (Fallible.issue (S := sig) c f).run
        (Ends (fun a s' => s' = s ∧ ∃ r, Effect s c r s ∧ f r = .ok a) fun _ s' => s' = s) s := by
    intro α c f hc
    refine ⟨trivial, fun r s' hr => ?_⟩
    obtain rfl := eq_of_plain hc hr
    show Ends _ _ (f r) s'
    cases hf : f r with
    | ok a => exact ⟨rfl, r, hr, hf⟩
    | error e => exact rfl
  rw [dockerDiffGuest, wp_bind]
  refine wp_ends_mono (wp_viewHost (Q := fun _ s' => s' = s) (E := fun _ s' => s' = s) ?_) ?_ fun _ _ h => h.1
  · exact wp_plain (plain_requireRunning _ _) (fun _ _ _ => trivial) (fun _ => rfl) fun _ => rfl
  rintro _ ⟨_, _⟩ ⟨rfl, rfl⟩
  rw [wp_bind, wp_ofExcept]
  cases hw : renderGuest x ctx g with
  | error e => exact rfl
  | ok want =>
    rw [ends_ok, wp_bind]
    refine wp_ends_mono (wp_viewHost (hread (c := .readCompose g.vmid) id trivial)) ?_ fun _ _ h => h.1
    rintro present ⟨_, _⟩ ⟨⟨rfl, r, hr, hpresent⟩, rfl⟩
    obtain rfl := hr.2 present hpresent
    rw [wp_bind]
    refine wp_ends_mono (wp_viewHost (hread (c := .readFacts g.vmid) id trivial)) ?_ fun _ _ h => h.1
    rintro facts ⟨_, _⟩ ⟨⟨rfl, r, hr, hfacts⟩, rfl⟩
    obtain rfl := hr.2 facts hfacts
    rw [wp_bind]
    refine wp_println (wp_ends_mono (wp_printAll (f := id)) ?_ fun _ _ h => h)
    rintro _ _ rfl
    exact ⟨want, rfl, by simp⟩

/-- **A `diff` (proved)**: it leaves the node as it is, and when it ends well it printed what is
foreseen. -/
theorem wp_diff :
    wp viewWorld (fun _ _ => True) (diff x ctx vmid).run
      (Ends (fun _ s' => ∃ g p want, Foreseen x ctx vmid s g p want ∧
        s' = (s, out ++ diffSaid s g p want)) fun _ s' => s'.1 = s) (s, out) := by
  rw [diff, wp_bind]
  refine wp_ends_mono (wp_viewHost (wp_load fun _ _ _ => trivial)) ?_ fun _ _ h => h.1
  rintro g ⟨_, _⟩ ⟨⟨rfl, hvmid, hread, hg⟩, rfl⟩
  rw [wp_bind]
  refine wp_ends_mono wp_pctDiffGuest ?_ fun _ s' h => by rw [h]
  rintro _ _ ⟨p, hp, rfl⟩
  refine wp_ends_mono wp_dockerDiffGuest ?_ fun _ _ h => h
  rintro _ _ ⟨want, hw, rfl⟩
  exact ⟨g, p, want, ⟨hvmid, hread, hg, hp, hw⟩, by rw [diffSaid, List.append_assoc]⟩

end

/-! ### What is run -/

/-- The operation a command runs. -/
def Cmd.op : Cmd → Option Op
  | .pct _ op _ => some op
  | _ => none

/-- The compose file a command writes. -/
def Cmd.written : Cmd → Option Text
  | .writeCompose _ text => some text
  | _ => none

def Cmd.Unwritten (c : Cmd) : Prop := c.written = none

/-- The operations of a trace, in order. -/
def opsOf (tr : List (Event sig)) : List Op := tr.filterMap fun e => e.1.op

/-- The compose files of a trace. -/
def writtenIn (tr : List (Event sig)) : List Text := tr.filterMap fun e => e.1.written

theorem opsOf_append (tr tr' : List (Event sig)) : opsOf (tr ++ tr') = opsOf tr ++ opsOf tr' :=
  List.filterMap_append

theorem writtenIn_append (tr tr' : List (Event sig)) :
    writtenIn (tr ++ tr') = writtenIn tr ++ writtenIn tr' := List.filterMap_append

section

variable {α : Type} {K : Cmd → Prop} {prog : Prog sig α} {tr : List (Event sig)} {a : α}

theorem opsOf_only (h : Only K prog) (hK : ∀ c, K c → c.op = none) (hy : Yields prog tr a) :
    opsOf tr = [] :=
  List.filterMap_eq_nil_iff.mpr fun e he => hK e.1 (only_events h hy e he)

theorem writtenIn_only (h : Only K prog) (hK : ∀ c, K c → c.written = none) (hy : Yields prog tr a) :
    writtenIn tr = [] :=
  List.filterMap_eq_nil_iff.mpr fun e he => hK e.1 (only_events h hy e he)

end

theorem op_of_looks {vmid : ℕ} {c : Cmd} (h : c.Looks vmid) : c.op = none := by
  cases c with
  | pct v op call => exact h.elim
  | _ => rfl

theorem written_of_looks {vmid : ℕ} {c : Cmd} (h : c.Looks vmid) : c.written = none := by
  cases c with
  | writeCompose v text => exact h.elim
  | _ => rfl

theorem op_of_plain {c : Cmd} (h : c.Plain) : c.op = none := by
  cases c with
  | pct v op call => exact h.elim
  | _ => rfl

theorem written_of_plain {c : Cmd} (h : c.Plain) : c.written = none := by
  cases c with
  | writeCompose v text => exact h.elim
  | _ => rfl

theorem written_of_ofPct {vmid : ℕ} {c : Cmd} (h : c.OfPct vmid) : c.written = none := by
  rcases h with h | ⟨op, call, rfl⟩
  · exact written_of_plain h
  · rfl

/-! ### The pct half, call by call -/

section

variable {σ : Type} {W : World sig σ} {ctx : Ctx} {g : Guest} {p : Plan} {s : σ}
  {J F : List (Op × Call) → σ → Prop}

/-- **The rule of a pct half (proved)**: `J done` holds where the calls `done` were made and all went
well, `F done` where the last of them failed. -/
theorem wp_pctApplyGuest_calls (hp : pctPlan ctx g = .ok p)
    (hJ : ∀ done s c r s', c.Plain → J done s → W.reply s c r s' → J done s')
    (hF : ∀ done s c r s', c.Plain → F done s → W.reply s c r s' → F done s')
    (hok : ∀ done op call s u s', J done s → W.reply s (.pct g.vmid op call) (.ok u) s' →
      J (done ++ [(op, call)]) s')
    (hfail : ∀ done op call s e s', J done s → W.reply s (.pct g.vmid op call) (.error e) s' →
      F (done ++ [(op, call)]) s') (hs : J [] s) :
    wp W (fun _ _ => True) (pctApplyGuest ctx g).run
      (Ends (fun n s' => n = p.ops.length ∧ J (execute g.config p) s')
        fun _ s' => ∃ done, done <+: execute g.config p ∧ (J done s' ∨ F done s')) s := by
  have hquiet : ∀ {α : Type} {q : M α} {P : σ → Prop} {s : σ}, Only Cmd.Plain q.run →
      (∀ s c r s', c.Plain → P s → W.reply s c r s' → P s') → P s →
      wp W (fun _ _ => True) q.run (Ends (fun _ => P) fun _ => P) s := by
    intro α q P s hq hP hs
    refine wp_mono (wp_only hq hP (fun _ _ _ _ => trivial) hs) fun r s' hs' => ?_
    cases r with
    | ok a => exact hs'
    | error e => exact hs'
  rw [pctApplyGuest, hp, wp_bind, wp_ofExcept, ends_ok, wp_bind]
  refine wp_ends_mono (hquiet (only_forEach fun n _ => plain_report _) (hJ []) hs) (fun _ s hs => ?_)
    fun _ _ h => ⟨[], List.nil_prefix, .inl h⟩
  split_ifs with hops
  · rw [wp_bind]
    refine wp_ends_mono (hquiet (plain_report _) (hJ []) hs) (fun _ s hs => ?_)
      fun _ _ h => ⟨[], List.nil_prefix, .inl h⟩
    rw [execute, hops]
    exact ⟨rfl, hs⟩
  rw [wp_bind]
  refine wp_ends_mono (hquiet (plain_report _) (hJ []) hs) (fun _ s hs => ?_)
    fun _ _ h => ⟨[], List.nil_prefix, .inl h⟩
  rw [wp_bind, wp_attempt]
  have hexec : wp W (fun _ _ => True) (executePlan g.config p).run
      (Ends (fun _ s' => J (execute g.config p) s')
        fun _ s' => ∃ done, done <+: execute g.config p ∧ (J done s' ∨ F done s')) s := by
    refine wp_ends_mono (wp_forEach _ (fun done rest s' => done ++ rest = execute g.config p ∧ J done s')
      ?_ _ [] s ⟨rfl, hs⟩) (fun _ _ h => h.2) fun _ _ h => h
    rintro done ⟨op, call⟩ rest s ⟨hcut, hs⟩
    have hpre : done <+: execute g.config p := ⟨_, hcut⟩
    have hnext : (done ++ [(op, call)]) ++ rest = execute g.config p := by
      rw [← hcut, List.append_assoc]
      rfl
    rw [wp_bind]
    refine wp_ends_mono (hquiet (plain_report _) (hJ done) hs) (fun _ s hs => ?_)
      fun _ _ h => ⟨done, hpre, .inl h⟩
    rw [wp_issue]
    refine ⟨trivial, fun r s' hr => ?_⟩
    cases r with
    | ok u => exact ⟨hnext, hok done op call s u s' hs hr⟩
    | error e => exact ⟨_, ⟨rest, hnext⟩, .inr (hfail done op call s e s' hs hr)⟩
  refine wp_mono hexec fun r s' hr => ?_
  cases r with
  | error e =>
    obtain ⟨done, hpre, hend⟩ := hr
    show wp W _ (Fallible.run _) _ s'
    dsimp only
    split_ifs
    · rw [wp_bind]
      refine wp_ends_mono (hquiet (P := fun s => J done s ∨ F done s) (plain_report _) ?_ hend)
        (fun _ _ h => ⟨done, hpre, h⟩) fun _ _ h => ⟨done, hpre, h⟩
      rintro s c r s' hc (h | h) hreply
      · exact .inl (hJ done s c r s' hc h hreply)
      · exact .inr (hF done s c r s' hc h hreply)
    · exact ⟨done, hpre, hend⟩
  | ok u =>
    show wp W _ (Fallible.run _) _ s'
    dsimp only
    split_ifs
    · exact ⟨_, List.prefix_rfl, .inl hr⟩
    · exact ⟨rfl, hr⟩

end

theorem map_callsFrom (conf : GuestConfig) (next : ℕ) (ops : List Op) :
    (callsFrom conf next ops).map Prod.fst = ops := by
  induction ops generalizing next with
  | nil => rfl
  | cons op ops ih => rw [callsFrom, List.map_cons, ih]

section

variable {x : External} {ctx : Ctx} {g : Guest} {p : Plan} {tr : List (Event sig)}

/-- **The pct half (proved)**: the operations run are the first of the plan, and all of them when it
ends well. -/
theorem opsOf_pctApplyGuest {r : Result ℕ} (hp : pctPlan ctx g = .ok p)
    (h : Yields (pctApplyGuest ctx g).run tr r) :
    opsOf tr <+: p.ops ∧ ∀ n, r = .ok n → opsOf tr = p.ops := by
  have hmap : (execute g.config p).map Prod.fst = p.ops := map_callsFrom _ _ _
  have hplain : ∀ (done : List (Op × Call)) (l : List (Event sig)) (c : Cmd) (r : c.Answer)
      (l' : List (Event sig)), c.Plain → opsOf l = done.map Prod.fst → World.log.reply l c r l' →
      opsOf l' = done.map Prod.fst := by
    rintro done l c r _ hc hl rfl
    rw [opsOf_append, hl]
    simp [opsOf, op_of_plain hc]
  have hcall : ∀ (done : List (Op × Call)) (op : Op) (call : Call) (l : List (Event sig))
      (r : Result Unit) (l' : List (Event sig)), opsOf l = done.map Prod.fst →
      World.log.reply l (Cmd.pct g.vmid op call) r l' →
      opsOf l' = (done ++ [(op, call)]).map Prod.fst := by
    rintro done op call l r _ hl rfl
    rw [opsOf_append, hl, List.map_append]
    rfl
  have hend := (wp_log_yields (wp_pctApplyGuest_calls (W := World.log)
    (J := fun done l => opsOf l = done.map Prod.fst) (F := fun done l => opsOf l = done.map Prod.fst)
    hp hplain hplain (fun done op call l u => hcall done op call l (.ok u))
    (fun done op call l e => hcall done op call l (.error e))
    (show opsOf ([] : List (Event sig)) = [] from rfl)) h).1
  rw [List.nil_append] at hend
  cases r with
  | ok n =>
    obtain ⟨-, hops⟩ := hend
    rw [hmap] at hops
    exact ⟨hops ▸ List.prefix_rfl, fun _ _ => hops⟩
  | error e =>
    obtain ⟨done, hpre, hops⟩ := hend
    refine ⟨?_, nofun⟩
    rw [or_self_iff.mp hops, ← hmap]
    exact hpre.map Prod.fst

theorem opsOf_docker {o : Options} {r : Result Bool}
    (h : Yields (dockerApplyGuest x ctx g o).run tr r) : opsOf tr = [] := by
  refine opsOf_only (only_dockerApplyGuest x ctx g o) (fun c hc => ?_) h
  cases hc with
  | plain hc => exact op_of_plain hc
  | up => rfl
  | compose _ => rfl
  | facts _ => rfl

/-- A program that only looks, run on the node before another one. -/
theorem run_plain_bind {α β : Type} {q : M α} {f : α → M β} {s s' : Node} {r : Result β}
    (hq : Only Cmd.Plain q.run) (h : Run nodeWorld s (q >>= f).run tr r s') :
    writtenIn tr = [] ∨ ∃ a rest, writtenIn tr = writtenIn rest ∧ Run nodeWorld s (f a).run rest r s' := by
  have hwritten : ∀ {tr : List (Event sig)} {r : Result α}, Yields q.run tr r → writtenIn tr = [] :=
    fun hy => writtenIn_only hq (fun _ => written_of_plain) hy
  rcases run_bind.mp h with ⟨e, hone, -⟩ | ⟨tr₁, a, s₁, rest, rfl, hone, hrest⟩
  · exact .inl (hwritten (yields_of_run hone))
  · have hsame : Ends (fun _ s₁ => s₁ = s) (fun _ _ => True) (.ok a : Result α) s₁ :=
      wp_run (wp_plain hq (fun _ _ _ => trivial) (fun _ => rfl) fun _ => trivial) hone
    obtain rfl : s₁ = s := hsame
    refine .inr ⟨a, rest, ?_, hrest⟩
    rw [writtenIn_append, hwritten (yields_of_run hone), List.nil_append]

/-- **The docker half (proved)**: only the file the guest should have is written, and only over another
one. -/
theorem writtenIn_docker {o : Options} {s s' : Node} {r : Result Bool}
    (h : Run nodeWorld s (dockerApplyGuest x ctx g o).run tr r s') :
    ∀ text ∈ writtenIn tr, renderGuest x ctx g = .ok text ∧ s.compose g.vmid ≠ some text := by
  have hnone : ∀ {tr : List (Event sig)} {P : Text → Prop}, writtenIn tr = [] →
      ∀ text ∈ writtenIn tr, P text := by
    intro tr P htr text ht
    rw [htr] at ht
    cases ht
  rw [dockerApplyGuest] at h
  rcases run_plain_bind (plain_ensureDocker _) h with hnil | ⟨_, tr₁, heq, h₁⟩
  · exact hnone hnil
  rw [heq]
  rcases run_plain_bind (plain_ensureLayout _ _) h₁ with hnil | ⟨_, tr₂, heq, h₂⟩
  · exact hnone hnil
  rw [heq]
  rcases run_bind.mp h₂ with ⟨e, hret, -⟩ | ⟨_, text, _, tr₃, rfl, hret, h₃⟩
  · obtain ⟨rfl, -, -⟩ := run_ofExcept.mp hret
    exact hnone rfl
  obtain ⟨rfl, hrender, rfl⟩ := run_ofExcept.mp hret
  rw [List.nil_append]
  rcases run_bind.mp h₃ with ⟨e, hread, -⟩ | ⟨_, current, s₄, tr₄, rfl, hread, h₄⟩
  · obtain ⟨_, rfl, -, -⟩ := run_issue.mp hread
    exact hnone rfl
  obtain ⟨answer, rfl, ⟨rfl, hcurrent⟩, hok⟩ := run_issue.mp hread
  obtain rfl := hcurrent current hok.symm
  rw [writtenIn_append, show writtenIn [(⟨.readCompose g.vmid, answer⟩ : Event sig)] = [] from rfl,
    List.nil_append]
  rcases run_plain_bind (plain_wantsStart _ _ _) h₄ with hnil | ⟨start, tr₅, heq, h₅⟩
  · exact hnone hnil
  rw [heq]
  -- what follows the file writes none
  have hrest : ∀ {tr : List (Event sig)} {r : Result Bool}, Yields (do
      startStack g o start
      let previous ← .issue (.readFacts g.vmid) id
      let facts ← factsNow g.read.digest previous
      .issue (.writeFacts g.vmid facts) id
      pure start : M Bool).run tr r → writtenIn tr = [] := by
    refine fun hy => writtenIn_only (K := Cmd.Unwritten) ?_ (fun _ h => h) hy
    refine only_bind (only_mono (only_startStack g o start) ?_) fun _ => ?_
    · rintro c (hc | rfl)
      · exact written_of_plain hc
      · rfl
    · have hread : (Cmd.readFacts g.vmid).Unwritten := rfl
      refine only_bind (only_issue hread _) fun previous => ⟨rfl, fun _ => ?_⟩
      exact ⟨rfl, fun r => only_bind (only_ofExcept r) fun _ => only_pure _⟩
  have hput : ∀ {tr : List (Event sig)} {r : Result Unit},
      Yields (putCompose g (s₄.compose g.vmid) text).run tr r →
      ∀ t ∈ writtenIn tr, t = text ∧ s₄.compose g.vmid ≠ some text := by
    intro tr r hy
    rw [putCompose] at hy
    split_ifs at hy with hne
    · rcases run_bind.mp hy with ⟨e, hsaid, -⟩ | ⟨_, _, _, _, rfl, hsaid, hwrite⟩
      · obtain ⟨_, rfl, -, -⟩ := run_issue.mp hsaid
        exact hnone rfl
      · obtain ⟨_, rfl, -, -⟩ := run_issue.mp hsaid
        obtain ⟨_, rfl, -, -⟩ := run_issue.mp hwrite
        exact fun t ht => ⟨List.mem_singleton.mp ht, hne⟩
    · obtain ⟨rfl, -⟩ := yields_ret.mp hy
      exact hnone rfl
  rw [← hrender]
  intro t ht
  rcases run_bind.mp h₅ with ⟨e, h₆, -⟩ | ⟨tr₆, _, s₆, tr₇, htr, h₆, h₇⟩
  · obtain ⟨rfl, hne⟩ := hput (yields_of_run h₆) t ht
    exact ⟨rfl, hne⟩
  · rw [htr, writtenIn_append, hrest (yields_of_run h₇), List.append_nil] at ht
    obtain ⟨rfl, hne⟩ := hput (yields_of_run h₆) t ht
    exact ⟨rfl, hne⟩

end

/-! ### An apply -/

section

variable {x : External} {ctx : Ctx} {vmid : ℕ} {s s' : Node} {g g' : Guest} {p : Plan} {want : Text}
  {tr : List (Event sig)} {r : Result Unit} {o : Options}

/-- Two guests loaded in one state for one document are one. -/
theorem loaded_unique (hvmid : g'.read.vmid = g.read.vmid) (hr : ReadNow x s g.read)
    (hg : LoadedNow ctx s g) (hr' : ReadNow x s g'.read) (hg' : LoadedNow ctx s g') : g' = g := by
  obtain ⟨config, ⟨v, text, digest, doc⟩, vols⟩ := g
  obtain ⟨config', ⟨v', text', digest', doc'⟩, vols'⟩ := g'
  obtain rfl : v' = v := hvmid
  obtain rfl : text' = text := Option.some.inj (hr'.text.symm.trans hr.text)
  obtain rfl : digest' = digest := hr'.digest.trans hr.digest.symm
  obtain rfl : doc' = doc := Except.ok.inj (hr'.doc.symm.trans hr.doc)
  obtain rfl : config' = config := Except.ok.inj (hg'.config.symm.trans hg.config)
  obtain rfl : vols' = vols := Except.ok.inj (hg'.volumes.symm.trans hg.volumes)
  rfl

/-- What an apply did for a guest whose plan is `p` and whose file should be `want`. -/
structure Carried (vmid : ℕ) (s : Node) (g : Guest) (p : Plan) (want : Text) (tr : List (Event sig))
    (r : Result Unit) (s' : Node) : Prop where
  ops : opsOf tr <+: p.ops
  written : ∀ text ∈ writtenIn tr, text = want ∧ s.compose vmid ≠ some want
  done : r = .ok () → opsOf tr = p.ops ∧ s'.compose vmid = some want ∧ s'.Named vmid g.read.digest

/-- What ended early, having written nothing. -/
theorem carried_of_early {e : Error} (hops : opsOf tr <+: p.ops) (hwritten : writtenIn tr = []) :
    Carried vmid s g p want tr (.error e) s' where
  ops := hops
  written := by
    intro text ht
    rw [hwritten] at ht
    cases ht
  done := nofun

theorem carried_of_error {e : Error} (hops : opsOf tr = []) (hwritten : writtenIn tr = []) :
    Carried vmid s g p want tr (.error e) s' :=
  carried_of_early (hops ▸ List.nil_prefix) hwritten

/-- Looks beforehand are neither run nor written. -/
theorem Carried.quiet {before : List (Event sig)} (h : Carried vmid s g p want tr r s')
    (hops : opsOf before = []) (hwritten : writtenIn before = []) :
    Carried vmid s g p want (before ++ tr) r s' := by
  have ho : opsOf (before ++ tr) = opsOf tr := by rw [opsOf_append, hops, List.nil_append]
  have hw : writtenIn (before ++ tr) = writtenIn tr := by
    rw [writtenIn_append, hwritten, List.nil_append]
  exact ⟨ho ▸ h.ops, hw ▸ h.written, ho ▸ h.done⟩

/-- The docker half of an apply. -/
theorem carried_of_docker {r : Result Bool} (hr : renderGuest x ctx g = .ok want)
    (h : Run nodeWorld s (dockerApplyGuest x ctx g o).run tr r s') :
    (∀ text ∈ writtenIn tr, text = want ∧ s.compose g.vmid ≠ some want) ∧
      ∀ b, r = .ok b → s'.compose g.vmid = some want ∧ s'.Named g.vmid g.read.digest := by
  refine ⟨fun text ht => ?_, ?_⟩
  · obtain ⟨hr', hne⟩ := writtenIn_docker h text ht
    obtain rfl := Except.ok.inj (hr'.symm.trans hr)
    exact ⟨rfl, hne⟩
  · rintro b rfl
    have hend := wp_run (wp_dockerApplyGuest (I := fun _ _ => True) (fun _ _ _ => trivial)
      fun _ _ => trivial) h
    cases hend with
    | @recorded _ text f hr' hd =>
      obtain rfl := Except.ok.inj (hr'.symm.trans hr)
      exact ⟨Function.update_self .., f, Function.update_self .., hd⟩

/-- The guest after a pct half that ended well is the same but for its config, and its file should be
what it should have been. -/
theorem render_of_refreshed {changed : ℕ} (hf : Foreseen x ctx vmid s g p want)
    {conf : PveConfig} (hall : PerformsAll AllocatedAs (s.conf g.vmid) (execute g.config p) conf)
    (hchanged : changed = p.ops.length) {s₁ : Node}
    (h : Run nodeWorld (s.setConf g.vmid conf) (refreshIfChanged ctx g changed).run tr (.ok g') s₁) :
    s₁ = s.setConf g.vmid conf ∧ g'.read = g.read ∧ g'.vmid = g.vmid ∧ LoadedNow ctx s₁ g' ∧
      renderGuest x ctx g' = .ok want := by
  have hvmid := hf.loaded.vmid
  have hread : parseConfig g.vmid (s.conf g.vmid) = .ok (pctInputs ctx g).guest :=
    hvmid ▸ hf.loaded.config
  have hops : p.ops = planOps (pctInputs ctx g) := (build_ok hf.plan).2
  have hhost := hostname_callsFrom hread (fun op hop => hops ▸ hop) hall
  have hconf : Configured g.vmid s (s.setConf g.vmid conf) := configured_setConf hhost
  have hsame : s₁ = s.setConf g.vmid conf ∧ g'.read = g.read ∧ LoadedNow ctx s₁ g' := by
    unfold refreshIfChanged at h
    split_ifs at h with hn
    · have hend : Ends (fun (g' : Guest) s₁ => s₁ = s.setConf g.vmid conf ∧ g'.read = g.read ∧
          LoadedNow ctx s₁ g') (fun _ _ => True) (.ok g' : Result Guest) s₁ := by
        refine wp_run (I := fun _ _ => True) ?_ h
        rw [refreshConfig, wp_bind]
        refine wp_ends_mono (wp_readConfig fun _ _ _ => trivial) ?_ fun _ _ _ => trivial
        rintro config s₂ ⟨rfl, hconfig⟩
        have hat : g.read.vmid = g.config.vmid := hvmid.symm
        exact ⟨rfl, rfl, hat ▸ hconfig, hf.loaded.volumes⟩
      exact hend
    · obtain ⟨-, heq, rfl⟩ := run_ret.mp h
      obtain rfl := Except.ok.inj heq
      have hnil : p.ops = [] := List.length_eq_zero_iff.mp (by omega)
      rw [execute, hnil] at hall
      cases hall
      rw [s.setConf_eq_self]
      exact ⟨rfl, rfl, hf.loaded⟩
  obtain ⟨rfl, hsame, hg'⟩ := hsame
  refine ⟨rfl, hsame, ?_, hg', ?_⟩
  · rw [hg'.vmid, hsame, hvmid]
  · have hfrom := hf.loaded.from hf.read
    have hfrom' := hg'.from (x := x) ⟨hsame ▸ hf.read.text, hsame ▸ hf.read.digest, hsame ▸ hf.read.doc⟩
    rw [hconf.hostname, hsame] at hfrom'
    rw [renderGuest_eq hfrom' hfrom, hf.render]

/-- What is inside the lock, where it was taken. -/
theorem run_withLock {W : World sig Node} (hW : ∀ s c r s', W.reply s c r s' → Effect s c r s')
    {α : Type} {v : ℕ} {body : M α} {r : Result α} (h : Run W s (withLock v body).run tr r s') :
    (opsOf tr = [] ∧ writtenIn tr = [] ∧ ∃ e, r = .error e) ∨
      ∃ tr₁, Run W s body.run tr₁ r s' ∧ opsOf tr = opsOf tr₁ ∧ writtenIn tr = writtenIn tr₁ := by
  rw [withLock] at h
  rcases run_bind.mp h with ⟨e, hlock, rfl⟩ | ⟨_, _, _, tr₂, rfl, hlock, h₁⟩
  · obtain ⟨_, rfl, -, -⟩ := run_issue.mp hlock
    exact .inl ⟨rfl, rfl, e, rfl⟩
  obtain ⟨_, rfl, hs, -⟩ := run_issue.mp hlock
  obtain rfl := hW _ _ _ _ hs
  obtain ⟨tr₃, _, s₂, tr₄, rfl, hbody, h₂⟩ := run_seq.mp h₁
  obtain ⟨tr₅, r', s₃, _, rfl, hbody, hret⟩ := run_seq.mp hbody
  obtain ⟨rfl, rfl, rfl⟩ := run_ret.mp hret
  rcases run_bind.mp h₂ with ⟨e, hunlock, rfl⟩ | ⟨_, _, _, _, rfl, hunlock, hend⟩
  · obtain ⟨_, -, -, hbad⟩ := run_issue.mp hunlock
    cases hbad
  obtain ⟨_, rfl, hs, -⟩ := run_issue.mp hunlock
  obtain rfl := hW _ _ _ _ hs
  obtain ⟨rfl, rfl, rfl⟩ := run_ofExcept.mp hend
  refine .inr ⟨tr₅, hbody, ?_, ?_⟩
  · rw [opsOf_append, opsOf_append, opsOf_append]
    simp [opsOf, Cmd.op]
  · rw [writtenIn_append, writtenIn_append, writtenIn_append]
    simp [writtenIn, Cmd.written]

/-- **An apply (proved)**: what it runs and writes is what was foreseen. -/
theorem carried_of_apply (hf : Foreseen x ctx vmid s g p want)
    (h : Run nodeWorld s (apply x ctx vmid o).run tr r s') : Carried vmid s g p want tr r s' := by
  have hat : g.vmid = vmid := hf.loaded.vmid.trans hf.vmid
  rcases run_withLock (fun _ _ _ _ h => h) h with ⟨hops, hwritten, e, rfl⟩ | ⟨tr₁, hbody, hops, hwritten⟩
  · exact carried_of_error hops hwritten
  suffices hcarried : Carried vmid s g p want tr₁ r s' by
    exact ⟨hops ▸ hcarried.ops, hwritten ▸ hcarried.written, hops ▸ hcarried.done⟩
  have hplain : ∀ {α : Type} {q : Prog sig α} {tr : List (Event sig)} {a : α}, Only Cmd.Plain q →
      Yields q tr a → opsOf tr = [] ∧ writtenIn tr = [] := fun hq hy =>
    ⟨opsOf_only hq (fun _ => op_of_plain) hy, writtenIn_only hq (fun _ => written_of_plain) hy⟩
  have hlooks : ∀ {tr : List (Event sig)} {r : Result Guest}, Yields (load x ctx vmid).run tr r →
      opsOf tr = [] ∧ writtenIn tr = [] := fun hy =>
    ⟨opsOf_only looks_load (fun _ => op_of_looks) hy,
      writtenIn_only looks_load (fun _ => written_of_looks) hy⟩
  rw [applyLocked] at hbody
  rcases run_bind.mp hbody with ⟨e, h₁, rfl⟩ | ⟨tr₂, _, s₁, tr₃, rfl, h₁, hbody₁⟩
  · obtain ⟨ho, hw⟩ := hplain (plain_requireRunning _ _) (yields_of_run h₁)
    exact carried_of_error ho hw
  obtain ⟨ho, hw⟩ := hplain (plain_requireRunning _ _) (yields_of_run h₁)
  refine Carried.quiet ?_ ho hw
  have hs₁ : Ends (fun _ s₁ => s₁ = s) (fun _ _ => True) (.ok _ : Result Unit) s₁ :=
    wp_run (wp_plain (plain_requireRunning _ _) (fun _ _ _ => trivial) (fun _ => rfl)
      fun _ => trivial) h₁
  obtain rfl : s₁ = s := hs₁
  rcases run_bind.mp hbody₁ with ⟨e, h₂, rfl⟩ | ⟨tr₄, g₁, s₂, tr₅, rfl, h₂, hbody₂⟩
  · obtain ⟨ho, hw⟩ := hlooks (yields_of_run h₂)
    exact carried_of_error ho hw
  obtain ⟨ho, hw⟩ := hlooks (yields_of_run h₂)
  refine Carried.quiet ?_ ho hw
  obtain ⟨hs₂, hvmid, hread, hloaded⟩ := wp_run (wp_load (I := Unasked) fun _ _ _ => trivial) h₂
  obtain rfl : s₂ = s₁ := hs₂
  obtain rfl := loaded_unique (hvmid.trans hf.vmid.symm) hf.read hf.loaded hread hloaded
  rcases run_bind.mp hbody₂ with ⟨e, h₃, rfl⟩ | ⟨tr₆, changed, s₃, tr₇, rfl, h₃, hbody₃⟩
  · have hwrote := writtenIn_only (only_pctApplyGuest ctx g₁) (fun _ => written_of_ofPct)
      (yields_of_run h₃)
    exact carried_of_early (opsOf_pctApplyGuest hf.plan (yields_of_run h₃)).1 hwrote
  have hran := (opsOf_pctApplyGuest hf.plan (yields_of_run h₃)).2 changed rfl
  have hwrote := writtenIn_only (only_pctApplyGuest ctx g₁) (fun _ => written_of_ofPct)
    (yields_of_run h₃)
  obtain ⟨p', conf, hp', hchanged, hall, hs₃⟩ :=
    wp_run (wp_pctApplyGuest (I := Unasked) fun _ _ _ => trivial) h₃
  obtain rfl : p' = p := Except.ok.inj (hp'.symm.trans hf.plan)
  obtain rfl : s₃ = s₂.setConf g₁.vmid conf := hs₃
  have hquiet : ∀ {tr : List (Event sig)} {r : Result Guest},
      Yields (refreshIfChanged ctx g₁ changed).run tr r → opsOf tr = [] ∧ writtenIn tr = [] := by
    refine fun hy => hplain ?_ hy
    unfold refreshIfChanged
    split_ifs
    · exact plain_refreshConfig ctx g₁
    · exact only_pure _
  rcases run_bind.mp hbody₃ with ⟨e, h₄, rfl⟩ | ⟨tr₈, g₂, s₄, tr₉, rfl, h₄, hbody₄⟩
  · obtain ⟨ho, hw⟩ := hquiet (yields_of_run h₄)
    refine carried_of_early ?_ ?_
    · rw [opsOf_append, hran, ho, List.append_nil]
    · rw [writtenIn_append, hwrote, hw, List.append_nil]
  obtain ⟨ho₄, hw₄⟩ := hquiet (yields_of_run h₄)
  obtain ⟨rfl, hsame, hat', hg₂, hr⟩ := render_of_refreshed hf hall hchanged h₄
  obtain ⟨tr₁₀, r', s₅, tr₁₁, rfl, h₅, hend⟩ := run_seq.mp hbody₄
  obtain ⟨hwritten', hdone⟩ := carried_of_docker hr h₅
  have ho₅ := opsOf_docker (yields_of_run h₅)
  have hpure : tr₁₁ = [] ∧ s' = s₅ ∧ ∀ u, r = .ok u → ∃ b, r' = .ok b := by
    cases r' with
    | ok b =>
      obtain ⟨rfl, rfl, rfl⟩ := run_ret.mp hend
      exact ⟨rfl, rfl, fun _ _ => ⟨b, rfl⟩⟩
    | error e =>
      obtain ⟨rfl, rfl, rfl⟩ := run_ret.mp hend
      exact ⟨rfl, rfl, fun _ h => by cases h⟩
  obtain ⟨rfl, rfl, hok⟩ := hpure
  have hops' : opsOf (tr₆ ++ (tr₈ ++ (tr₁₀ ++ []))) = p'.ops := by
    simp only [opsOf_append, hran, ho₄, ho₅, List.append_nil]
  refine ⟨hops' ▸ List.prefix_rfl, fun text ht => ?_, fun hr => ?_⟩
  · have ht' : text ∈ writtenIn tr₁₀ := by
      simpa only [writtenIn_append, hwrote, hw₄, List.nil_append, List.append_nil] using ht
    rw [← hat, ← hat']
    exact hwritten' text ht'
  · obtain ⟨b, hb⟩ := hok () hr
    obtain ⟨hcompose, hnamed⟩ := hdone b hb
    rw [hsame, hat', hat] at hnamed
    rw [hat', hat] at hcompose
    exact ⟨hops', hcompose, hnamed⟩

/-- **What `diff` says is what an apply does (proved)**: a `diff` changes nothing, and when it ends well,
every apply of the guest as it is runs the operations that were printed, up to the first that fails, and
writes no file but the one that was compared, and that one only over another; when it ends well it ran
them all and the file and the facts are there. -/
theorem diff_foretells_apply {s' : Node × List Text} {out : List Text} {seen : List (Event viewSig)}
    {r : Result Unit} (h : Run viewWorld (s, out) (diff x ctx vmid).run seen r s') :
    s'.1 = s ∧ (r = .ok () → ∃ g p want, Foreseen x ctx vmid s g p want ∧
      s'.2 = out ++ diffSaid s g p want ∧
        ∀ o tr r s₁, Run nodeWorld s (apply x ctx vmid o).run tr r s₁ →
          Carried vmid s g p want tr r s₁) := by
  have hend := wp_run wp_diff h
  cases r with
  | error e => exact ⟨hend, nofun⟩
  | ok u =>
    obtain ⟨g, p, want, hf, rfl⟩ := hend
    exact ⟨rfl, fun _ => ⟨g, p, want, hf, rfl, fun o tr r s₁ hrun => carried_of_apply hf hrun⟩⟩

end

/-- A node that answers, shown. -/
def Script.shown (sc : Script) (rows : List ContainerRow) (s : Node × List Text) :
    (c : ViewCmd) → c.Answer × (Node × List Text)
  | .host c => ((sc.answer s.1 c).1, ((sc.answer s.1 c).2, s.2))
  | .print text => ((), (s.1, s.2 ++ [text]))
  | .named _ => (.ok (sc.listed.map fun l => (l, "web")), s)
  | .containers _ => (.ok rows, s)

theorem Script.shown_reply (sc : Script) (rows : List ContainerRow) (s : Node × List Text)
    (c : ViewCmd) : viewWorld.reply s c (sc.shown rows s c).1 (sc.shown rows s c).2 := by
  cases c with
  | host c => exact ⟨sc.answer_effect s.1 c, rfl⟩
  | _ => rfl

/-! ### A node on which `pct set` succeeds -/

/-- A config with a line stored, if that is no more than an answer holds. -/
def PveConfig.put (key line : Text) (conf : PveConfig) : Option PveConfig :=
  let fields := Assoc.set key (.string line) conf.fields
  if h : (fields.map Prod.fst).Nodup ∧ fields.length ≤ MAX_OUTPUT then some ⟨fields, h.1, h.2⟩
  else none

theorem PveConfig.stored_of_put {key line : Text} {conf conf' : PveConfig}
    (h : conf.put key line = some conf') : PveConfig.Stored key line conf conf' := by
  unfold PveConfig.put at h
  dsimp only at h
  split_ifs at h
  cases h
  exact PveConfig.stored_of_set rfl

/-- What a call leaves of a config: a disk is kept with a `volume` of PVE's own, and a resize is
refused. -/
def granted (volume : Text) (conf : PveConfig) : Op → Call → Option PveConfig
  | .createDisk mp _ size backup, .set key _ =>
    let m : Mount := { key, volume, mp := some mp, size := some size, backup, other := ∅ }
    if m.isBind = false ∧ Mount.parse key m.display = .ok m then conf.put key m.display else none
  | .setFeatures _, .set key value | .addTag _, .set key value | .createBind _ _, .set key value
  | .setBackup _ _, .set key value => conf.put key value
  | _, _ => none

theorem performs_granted {alloc : Alloc} (halloc : ∀ op key value line, Allocated op key line →
    alloc op key value line) {volume : Text} {conf conf' : PveConfig} {op : Op} {call : Call}
    (h : granted volume conf op call = some conf') : Performs alloc conf conf' op call := by
  cases call with
  | resize key size => cases op <;> cases h
  | set key value =>
    cases op with
    | createDisk mp storage size backup =>
      unfold granted at h
      dsimp only at h
      split_ifs at h with hm
      exact .createDisk (halloc _ _ _ _ (.own hm.2 hm.1 rfl rfl rfl)) (PveConfig.stored_of_put h)
    | setFeatures s => exact .setFeatures (PveConfig.stored_of_put h)
    | addTag t => exact .addTag (PveConfig.stored_of_put h)
    | createBind mp path => exact .createBind (PveConfig.stored_of_put h)
    | setBackup m b => exact .setBackup (PveConfig.stored_of_put h)
    | resize key mp old new => cases h

/-- A node that answers, and does what `pct set` is asked for. -/
def Script.granting (sc : Script) (volume : Text) (s : Node) : (c : Cmd) → c.Answer × Node
  | .pct v op call => (granted volume (s.conf v) op call).elim (bail "pct: refused", s) fun conf =>
      (.ok (), s.setConf v conf)
  | c => sc.answer s c

theorem Script.granting_pct (sc : Script) (volume : Text) (s : Node) (v : ℕ) (op : Op) (call : Call) :
    sc.granting volume s (.pct v op call) = (granted volume (s.conf v) op call).elim
      (bail "pct: refused", s) fun conf => (.ok (), s.setConf v conf) := rfl

theorem Script.granting_effect (sc : Script) (volume : Text) (s : Node) (c : Cmd) :
    nodeWorld.reply s c (sc.granting volume s c).1 (sc.granting volume s c).2 := by
  have h := sc.answer_effect s c
  cases c with
  | pct v op call =>
    rw [Script.granting_pct]
    cases hconf : granted volume (s.conf v) op call with
    | none => exact .inr ⟨rfl, nofun⟩
    | some conf => exact .inl ⟨conf, performs_granted (fun _ _ _ _ => .inr) hconf, rfl⟩
  | _ => exact h

/-! ### A guest with no tag and no disk yet -/

def newcomerCtx : Ctx := { dataCtx with tag := some "compose" }

def newcomerNode : Node := dataNode webConf

/-- The guest of the document with one disk. -/
def newcomerGuest : Guest where
  config := { emptyConfig 105 with
    hostname := some "web"
    unprivileged := true
    features := ((∅ : TextMap).insert "keyctl" "1").insert "nesting" "1" }
  read := { vmid := 105, text := dataText, digest := dataExternal.digest dataText, doc := dataDoc }
  volumes := [⟨"data", .disk (some "local") (Size.saturate (2 ^ 30)), none, true⟩]

def newcomerPlan : Plan where
  ops := [.addTag "compose",
    .createDisk "/opt/stack/volumes/data" "local" (Size.saturate (2 ^ 30)) true]
  notes := []

def newcomerRendered : Text :=
  HEADER ++ "name: web\nservices:\n  web:\n    image: nginx\nvolumes:\n  data:\n    driver: local\n"
    ++ "    driver_opts:\n      type: none\n      o: bind\n      device: /opt/stack/volumes/data\n"

theorem foreseen_newcomer :
    Foreseen dataExternal newcomerCtx 105 newcomerNode newcomerGuest newcomerPlan newcomerRendered := by
  refine ⟨rfl, ⟨rfl, rfl, rfl⟩, ⟨by decide +kernel, by decide +kernel⟩, by decide +kernel, ?_⟩
  decide +kernel

/-- PVE, with a volume of its own for the disk. -/
def newcomerAnswer : Node → (c : Cmd) → c.Answer × Node := dataScript.granting "local:vm-105-disk-1"

theorem newcomer_ok : ((apply dataExternal newcomerCtx 105 handOptions).run.interpret newcomerAnswer
    newcomerNode).1 = .ok () := by decide +kernel

/-- The two operations that are printed are run, and the file that is compared is written. -/
theorem diff_foretells_apply_newcomer :
    ((diff dataExternal newcomerCtx 105).run.interpret (dataScript.shown []) (newcomerNode, [])).2.2
        = diffSaid newcomerNode newcomerGuest newcomerPlan newcomerRendered ∧
      ∃ tr s₁, Run nodeWorld newcomerNode (apply dataExternal newcomerCtx 105 handOptions).run tr
        (.ok ()) s₁ ∧ opsOf tr = newcomerPlan.ops ∧ writtenIn tr = [newcomerRendered] := by
  have hdiff := run_trace (dataScript.shown_reply []) (diff dataExternal newcomerCtx 105).run
    (newcomerNode, [])
  obtain ⟨-, hok⟩ := diff_foretells_apply hdiff
  obtain ⟨g, p, want, hf, hsaid, happly⟩ := hok (by decide +kernel)
  obtain rfl := loaded_unique hf.vmid.symm hf.read hf.loaded foreseen_newcomer.read
    foreseen_newcomer.loaded
  obtain rfl := Except.ok.inj (hf.plan.symm.trans foreseen_newcomer.plan)
  obtain rfl := Except.ok.inj (hf.render.symm.trans foreseen_newcomer.render)
  refine ⟨hsaid, ?_⟩
  have hrun := run_trace (dataScript.granting_effect "local:vm-105-disk-1")
    (apply dataExternal newcomerCtx 105 handOptions).run newcomerNode
  have hend := newcomer_ok
  unfold newcomerAnswer at hend
  rw [hend] at hrun
  exact ⟨_, _, hrun, ((happly _ _ _ _ hrun).done rfl).1, by decide +kernel⟩

end PveCompose
