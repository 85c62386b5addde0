import PveCompose.Lib.Threads
import PveCompose.Node

/-!
# An older document never overwrites a newer one

One guest, the versions of its document numbered from 1 in the order they are written.  The loop and
any number of hand-run verbs take turns, documents are written at any moment, and the guest's lock
has one holder.  A hand-run verb reads the document after it has taken the lock; the loop reads it
before.

* `Numbered` — **the invariant**: the compose file is the render of the version it is numbered
  with, and the facts name the version they are numbered with;
* `discipline` — **PROVED**: every party, relying on the lock alone, writes only versions at least
  as new as what is there, if whenever the loop takes the lock nothing newer than what it read has
  been applied (`Unpassed`);
* `never_backwards` — **PROVED**: in every such interleaving neither number ever goes down;
* `goes_backwards` — the loop, a writer and a hand-run `docker apply`, without a failing command.
-/

namespace PveCompose

open Programs

inductive Party where
  | loop : Party
  | hand : ℕ → Party
deriving DecidableEq

/-- What the parties share about the guest, with the numbers as history variables. -/
structure Shared where
  /-- The document's versions in the order they were written. -/
  versions : List Text
  /-- Who holds the guest's lock. -/
  holder : Option Party
  compose : Option Text
  facts : Option Facts
  /-- The version each party read last. -/
  seen : Party → ℕ
  /-- The version whose render was written to the compose file last. -/
  inCompose : ℕ
  /-- The version the facts were written for last. -/
  inFacts : ℕ

namespace Shared

/-- The version of a number. -/
def version (s : Shared) : ℕ → Option Text
  | 0 => none
  | n + 1 => s.versions[n]?

end Shared

/-- What a command of a party does, for each answer it may get.  Reads that are not of the guest's
document, file or facts, and the calls on other guests, are answered in any way. -/
def Act (vmid : ℕ) (p : Party) (s : Shared) : (c : Cmd) → c.Answer → Shared → Prop
  | .metaGet v, r, s' =>
      if v = vmid then
        s' = { s with seen := Function.update s.seen p s.versions.length } ∧
          ∀ out, r = .ok out → (out.status = 0 → s.versions.getLast? = some out.stdout) ∧
            (out.status = 2 → s.versions = [])
      else s' = s
  | .lock v _, r, s' =>
      if v = vmid then
        r = .ok () ∧ s.holder = none ∧ s' = { s with holder := some p } ∨
          (∀ u, r ≠ .ok u) ∧ s' = s
      else s' = s
  | .unlock v, _, s' => s' = if v = vmid then { s with holder := none } else s
  | .readCompose v, r, s' => s' = s ∧ (v = vmid → ∀ a, r = .ok a → a = s.compose)
  | .readFacts v, r, s' => s' = s ∧ (v = vmid → ∀ a, r = .ok a → a = s.facts)
  | .writeCompose v text, r, s' =>
      v = vmid ∧ s' = { s with compose := some text, inCompose := s.seen p } ∨
        s' = s ∧ (v = vmid → ∀ u, r ≠ .ok u)
  | .writeFacts v facts, r, s' =>
      v = vmid ∧ s' = { s with facts := some facts, inFacts := s.seen p } ∨
        s' = s ∧ (v = vmid → ∀ u, r ≠ .ok u)
  | _, _, s' => s' = s

/-- A new version of the document is written. -/
def Written (s s' : Shared) : Prop :=
  ∃ text, text ∉ s.versions ∧ s' = { s with versions := s.versions ++ [text] }

/-- What a party may start: the loop passes, the others the verbs, on any guest. -/
inductive Starts (x : External) : Party → Prog sig Unit → Prop where
  | pass (ctx : Ctx) (memo : Memo) : Starts x .loop (pass x ctx memo).void
  | pctApply (n : ℕ) (ctx : Ctx) (v : ℕ) : Starts x (.hand n) (pctApply x ctx v).run.void
  | dockerApply (n : ℕ) (ctx : Ctx) (v : ℕ) (o : Options) :
      Starts x (.hand n) (dockerApply x ctx v o).run.void
  | apply (n : ℕ) (ctx : Ctx) (v : ℕ) (o : Options) : Starts x (.hand n) (apply x ctx v o).run.void

def threads (x : External) (vmid : ℕ) : Threads sig Shared Party := ⟨Act vmid, Written, Starts x⟩

/-- Whenever the loop takes the guest's lock, nothing newer than what it read has been applied. -/
def Unpassed (vmid : ℕ) : Proviso sig Shared Party
  | .loop, s, .lock v _, r =>
      v = vmid → (∃ u, r = .ok u) → s.inCompose ≤ s.seen .loop ∧ s.inFacts ≤ s.seen .loop
  | _, _, _, _ => True

/-! ### The invariant -/

/-- `text` is what some guest loaded for the version has as its compose file. -/
def IsRender (x : External) (vmid : ℕ) (version text : Text) : Prop :=
  ∃ ctx host g, LoadedFrom x ctx host vmid version g ∧ renderGuest x ctx g = .ok text

/-- The numbers say what is there. -/
structure Numbered (x : External) (vmid : ℕ) (s : Shared) : Prop where
  compose_le : s.inCompose ≤ s.versions.length
  facts_le : s.inFacts ≤ s.versions.length
  seen_le : ∀ p, s.seen p ≤ s.versions.length
  rendered : ∀ text, s.compose = some text →
    ∃ version, s.version s.inCompose = some version ∧ IsRender x vmid version text
  named : ∀ f, s.facts = some f →
    ∃ version, s.version s.inFacts = some version ∧ f.digest = x.digest version

/-- What a party relies on while others have their turn. -/
structure Relied (p : Party) (s s' : Shared) : Prop where
  seen : s'.seen p = s.seen p
  versions : s.versions <+: s'.versions
  held : s.holder = some p →
    s'.holder = some p ∧ s'.inCompose = s.inCompose ∧ s'.inFacts = s.inFacts

/-- What is asked of a party's command: it writes and unlocks under the lock, and writes the version
it read, no older than what is there. -/
def Obliged (x : External) (vmid : ℕ) (p : Party) (s : Shared) : Cmd → Prop
  | .writeCompose v text => v = vmid → s.holder = some p ∧ s.inCompose ≤ s.seen p ∧
      ∃ version, s.version (s.seen p) = some version ∧ IsRender x vmid version text
  | .writeFacts v f => v = vmid → s.holder = some p ∧ s.inFacts ≤ s.seen p ∧
      ∃ version, s.version (s.seen p) = some version ∧ f.digest = x.digest version
  | .unlock v => v = vmid → s.holder = some p
  | _ => True

theorem version_of_prefix {s s' : Shared} {n : ℕ} {text : Text} (h : s.versions <+: s'.versions)
    (hn : s.version n = some text) : s'.version n = some text := by
  cases n with
  | zero => cases hn
  | succ n =>
    obtain ⟨more, hmore⟩ := h
    obtain ⟨hlt, -⟩ := List.getElem?_eq_some_iff.mp hn
    show s'.versions[n]? = some text
    rw [← hmore, List.getElem?_append_left hlt]
    exact hn

theorem relied_refl (p : Party) (s : Shared) : Relied p s s :=
  ⟨rfl, List.prefix_refl _, fun h => ⟨h, rfl, rfl⟩⟩

theorem Relied.trans {p : Party} {s₁ s₂ s₃ : Shared} (h : Relied p s₁ s₂) (h' : Relied p s₂ s₃) :
    Relied p s₁ s₃ where
  seen := h'.seen.trans h.seen
  versions := h.versions.trans h'.versions
  held hp := by
    obtain ⟨hp₂, hc, hf⟩ := h.held hp
    obtain ⟨hp₃, hc', hf'⟩ := h'.held hp₂
    exact ⟨hp₃, hc'.trans hc, hf'.trans hf⟩

section Act

variable {x : External} {vmid : ℕ} {p q : Party} {s s' : Shared} {c : Cmd} {r : c.Answer}

/-- What a command may do to the guest: one lemma for all commands. -/
inductive Acted (x : External) (vmid : ℕ) (p : Party) (s : Shared) : Shared → Prop where
  | looked : Acted x vmid p s s
  | saw : Acted x vmid p s { s with seen := Function.update s.seen p s.versions.length }
  | locked : s.holder = none → Acted x vmid p s { s with holder := some p }
  | unlocked : s.holder = some p → Acted x vmid p s { s with holder := none }
  | composed {version text : Text} : s.holder = some p → s.inCompose ≤ s.seen p →
      s.version (s.seen p) = some version → IsRender x vmid version text →
      Acted x vmid p s { s with compose := some text, inCompose := s.seen p }
  | recorded {version : Text} {f : Facts} : s.holder = some p → s.inFacts ≤ s.seen p →
      s.version (s.seen p) = some version → f.digest = x.digest version →
      Acted x vmid p s { s with facts := some f, inFacts := s.seen p }

theorem acted_of_act (h : Act vmid p s c r s') (hI : Obliged x vmid p s c) :
    Acted x vmid p s s' := by
  cases c with
  | metaGet v =>
    dsimp only [Act] at h
    split_ifs at h
    · exact h.1 ▸ .saw
    · exact h ▸ .looked
  | lock v w =>
    dsimp only [Act] at h
    split_ifs at h
    · rcases h with ⟨-, hnone, rfl⟩ | ⟨-, rfl⟩
      · exact .locked hnone
      · exact .looked
    · exact h ▸ .looked
  | unlock v =>
    dsimp only [Act] at h
    split_ifs at h with hv
    · exact h ▸ .unlocked (hI hv)
    · exact h ▸ .looked
  | writeCompose v text =>
    rcases h with ⟨hv, rfl⟩ | ⟨rfl, -⟩
    · obtain ⟨hp, hle, version, hversion, hrender⟩ := hI hv
      exact .composed hp hle hversion hrender
    · exact .looked
  | writeFacts v f =>
    rcases h with ⟨hv, rfl⟩ | ⟨rfl, -⟩
    · obtain ⟨hp, hle, version, hversion, hd⟩ := hI hv
      exact .recorded hp hle hversion hd
    · exact .looked
  | readCompose v => exact h.1 ▸ .looked
  | readFacts v => exact h.1 ▸ .looked
  | _ => exact (show s' = s from h) ▸ .looked

/-- **The step lemma for the numbers (proved).** -/
theorem Numbered.acted (hs : Numbered x vmid s) (h : Acted x vmid p s s') : Numbered x vmid s' := by
  cases h with
  | looked => exact hs
  | saw =>
    refine ⟨hs.compose_le, hs.facts_le, fun q => ?_, hs.rendered, hs.named⟩
    show Function.update s.seen p s.versions.length q ≤ _
    by_cases hq : q = p
    · subst hq
      rw [Function.update_self]
    · rw [Function.update_of_ne hq]
      exact hs.seen_le q
  | locked _ => exact ⟨hs.compose_le, hs.facts_le, hs.seen_le, hs.rendered, hs.named⟩
  | unlocked _ => exact ⟨hs.compose_le, hs.facts_le, hs.seen_le, hs.rendered, hs.named⟩
  | composed _ _ hversion hrender =>
    refine ⟨hs.seen_le p, hs.facts_le, hs.seen_le, ?_, hs.named⟩
    rintro _ ⟨⟩
    exact ⟨_, hversion, hrender⟩
  | recorded _ _ hversion hd =>
    refine ⟨hs.compose_le, hs.seen_le p, hs.seen_le, hs.rendered, ?_⟩
    rintro _ ⟨⟩
    exact ⟨_, hversion, hd⟩

/-- **The step lemma for the others (proved)**: the lock keeps them out. -/
theorem relied_of_acted (hq : q ≠ p) (h : Acted x vmid p s s') : Relied q s s' := by
  have hout : s.holder = some p → ∀ P : Prop, s.holder = some q → P := by
    intro hp P hq'
    rw [hp, Option.some.injEq] at hq'
    exact absurd hq'.symm hq
  cases h with
  | looked => exact relied_refl q s
  | saw => exact ⟨Function.update_of_ne hq _ _, List.prefix_refl _, fun h => ⟨h, rfl, rfl⟩⟩
  | locked hnone =>
    refine ⟨rfl, List.prefix_refl _, fun hq' => ?_⟩
    rw [hnone] at hq'
    cases hq'
  | unlocked hp => exact ⟨rfl, List.prefix_refl _, hout hp _⟩
  | composed hp _ _ _ => exact ⟨rfl, List.prefix_refl _, hout hp _⟩
  | recorded hp _ _ _ => exact ⟨rfl, List.prefix_refl _, hout hp _⟩

theorem Numbered.written (hs : Numbered x vmid s) (h : Written s s') :
    Numbered x vmid s' ∧ ∀ q, Relied q s s' := by
  obtain ⟨text, -, rfl⟩ := h
  have hpre : s.versions <+: s.versions ++ [text] := List.prefix_append _ _
  have hlen : s.versions.length ≤ (s.versions ++ [text]).length := hpre.length_le
  refine ⟨⟨hs.compose_le.trans hlen, hs.facts_le.trans hlen, fun q => (hs.seen_le q).trans hlen,
    fun t ht => ?_, fun f hf => ?_⟩, fun q => ⟨rfl, hpre, fun h => ⟨h, rfl, rfl⟩⟩⟩
  · obtain ⟨version, hversion, hrender⟩ := hs.rendered t ht
    exact ⟨version, version_of_prefix hpre hversion, hrender⟩
  · obtain ⟨version, hversion, hd⟩ := hs.named f hf
    exact ⟨version, version_of_prefix hpre hversion, hd⟩

end Act

/-! ### What a party knows of the guest -/

section Party

variable {x : External} {vmid v : ℕ} {p : Party} {text : Text} {s s' : Shared}

/-- The world of one party. -/
abbrev world (x : External) (vmid : ℕ) (p : Party) : World sig Shared :=
  (threads x vmid).among (Unpassed vmid) Relied (Numbered x vmid) p

/-- The party holds the lock of the guest, if that is the guest it is at. -/
def Owns (vmid v : ℕ) (p : Party) (s : Shared) : Prop := v = vmid → s.holder = some p

/-- `text` is the version the party read last. -/
def Saw (vmid v : ℕ) (p : Party) (text : Text) (s : Shared) : Prop :=
  v = vmid → s.version (s.seen p) = some text

/-- The party is at work on the version `text`, and nothing newer has been applied. -/
structure Works (vmid v : ℕ) (p : Party) (text : Text) (s : Shared) : Prop where
  owns : Owns vmid v p s
  saw : Saw vmid v p text s
  newest : v = vmid → s.inCompose ≤ s.seen p ∧ s.inFacts ≤ s.seen p

theorem Owns.relied (h : Owns vmid v p s) (hR : Relied p s s') : Owns vmid v p s' :=
  fun hv => (hR.held (h hv)).1

theorem Saw.relied (h : Saw vmid v p text s) (hR : Relied p s s') : Saw vmid v p text s' := by
  intro hv
  rw [hR.seen]
  exact version_of_prefix hR.versions (h hv)

theorem Works.relied (h : Works vmid v p text s) (hR : Relied p s s') : Works vmid v p text s' := by
  refine ⟨h.owns.relied hR, h.saw.relied hR, fun hv => ?_⟩
  obtain ⟨-, hc, hf⟩ := hR.held (h.owns hv)
  rw [hR.seen, hc, hf]
  exact h.newest hv

/-- The commands of the two halves: what moves neither the lock nor what the party has read. -/
def Cmd.Inside : Cmd → Prop
  | .metaGet _ | .lock _ _ | .unlock _ => False
  | _ => True

theorem Cmd.Plain.inside {c : Cmd} (h : c.Plain) : c.Inside := by
  cases c with
  | metaGet _ => exact h.elim
  | lock _ _ => exact h.elim
  | unlock _ => exact h.elim
  | _ => trivial

/-- A command inside the lock leaves the lock, the versions and what was read, and what it writes is
numbered with what was read. -/
theorem inside_act {c : Cmd} {r : c.Answer} (hc : c.Inside) (h : Act vmid p s c r s') :
    s'.holder = s.holder ∧ s'.seen = s.seen ∧ s'.versions = s.versions ∧
      (s'.inCompose = s.inCompose ∨ s'.inCompose = s.seen p) ∧
        (s'.inFacts = s.inFacts ∨ s'.inFacts = s.seen p) := by
  cases c with
  | metaGet _ => exact hc.elim
  | lock _ _ => exact hc.elim
  | unlock _ => exact hc.elim
  | writeCompose v text =>
    rcases h with ⟨-, rfl⟩ | ⟨rfl, -⟩
    · exact ⟨rfl, rfl, rfl, .inr rfl, .inl rfl⟩
    · exact ⟨rfl, rfl, rfl, .inl rfl, .inl rfl⟩
  | writeFacts v f =>
    rcases h with ⟨-, rfl⟩ | ⟨rfl, -⟩
    · exact ⟨rfl, rfl, rfl, .inl rfl, .inr rfl⟩
    · exact ⟨rfl, rfl, rfl, .inl rfl, .inl rfl⟩
  | readCompose v => exact h.1 ▸ ⟨rfl, rfl, rfl, .inl rfl, .inl rfl⟩
  | readFacts v => exact h.1 ▸ ⟨rfl, rfl, rfl, .inl rfl, .inl rfl⟩
  | _ => exact (show s' = s from h) ▸ ⟨rfl, rfl, rfl, .inl rfl, .inl rfl⟩

theorem Owns.reply {c : Cmd} {r : c.Answer} (hc : c.Inside) (h : Owns vmid v p s)
    (hr : (world x vmid p).reply s c r s') : Owns vmid v p s' := by
  obtain ⟨-, s₁, ha, hR, -⟩ := hr
  obtain ⟨hholder, -⟩ := inside_act hc ha
  exact Owns.relied (fun hv => hholder.trans (h hv)) hR

theorem Works.reply {c : Cmd} {r : c.Answer} (hc : c.Inside) (h : Works vmid v p text s)
    (hr : (world x vmid p).reply s c r s') : Works vmid v p text s' := by
  obtain ⟨-, s₁, ha, hR, -⟩ := hr
  obtain ⟨hholder, hseen, hversions, hcompose, hfacts⟩ := inside_act hc ha
  refine Works.relied ⟨fun hv => hholder.trans (h.owns hv), fun hv => ?_, fun hv => ?_⟩ hR
  · rw [hseen]
    refine version_of_prefix ?_ (h.saw hv)
    rw [hversions]
  · obtain ⟨hc', hf'⟩ := h.newest hv
    rw [hseen]
    constructor
    · rcases hcompose with heq | heq <;> omega
    · rcases hfacts with heq | heq <;> omega

/-! ### The programs of a party -/

theorem obliged_of_plain {c : Cmd} (hc : c.Plain) : Obliged x vmid p s c := by
  cases c with
  | writeCompose _ _ => exact hc.elim
  | writeFacts _ _ => exact hc.elim
  | unlock _ => exact hc.elim
  | _ => trivial

/-- The docker half of a guest loaded for the version at work. -/
theorem wp_docker_works {ctx : Ctx} {host : Option Text} {g : Guest} {o : Options}
    (hg : LoadedFrom x ctx host v text g) (h : Works vmid v p text s) :
    wp (world x vmid p) (Obliged x vmid p) (dockerApplyGuest x ctx g o).run
      (fun _ => Works vmid v p text) s := by
  have hvmid : g.vmid = v := hg.vmid
  refine wp_only (only_dockerApplyGuest x ctx g o) (P := Works vmid v p text) ?_ ?_ h
  · intro s c r s' hc hs hr
    refine hs.reply ?_ hr
    cases hc with
    | plain hc => exact hc.inside
    | _ => trivial
  · intro s c hc hs
    cases hc with
    | plain hc => exact obliged_of_plain hc
    | up => trivial
    | compose hrender =>
      intro hv
      rw [hvmid] at hv
      exact ⟨hs.owns hv, (hs.newest hv).1, text, hs.saw hv, ctx, host, g, hv ▸ hg, hrender⟩
    | facts hd =>
      intro hv
      rw [hvmid] at hv
      exact ⟨hs.owns hv, (hs.newest hv).2, text, hs.saw hv, hd.trans hg.digest⟩

theorem wp_pct_works {ctx : Ctx} {g : Guest} (h : Works vmid v p text s) :
    wp (world x vmid p) (Obliged x vmid p) (pctApplyGuest ctx g).run
      (fun _ => Works vmid v p text) s := by
  refine wp_only (only_pctApplyGuest ctx g) (P := Works vmid v p text) ?_ ?_ h
  · rintro s c r s' (hc | ⟨op, call, rfl⟩) hs hr
    · exact hs.reply hc.inside hr
    · exact hs.reply (c := .pct _ _ _) trivial hr
  · rintro s c (hc | ⟨op, call, rfl⟩) hs
    · exact obliged_of_plain hc
    · trivial

/-- The lock: inside it the party owns the guest, and the loop has read nothing that was passed. -/
theorem wp_lock_owns {α : Type} {body : M α}
    (hbody : ∀ s', Numbered x vmid s' → Owns vmid v p s' → (v = vmid → s'.seen p = s.seen p ∧
        s.versions <+: s'.versions ∧
          (p = .loop → s'.inCompose ≤ s'.seen p ∧ s'.inFacts ≤ s'.seen p)) →
      wp (world x vmid p) (Obliged x vmid p) body.run (fun _ => Owns vmid v p) s') :
    wp (world x vmid p) (Obliged x vmid p) (withLock v body).run (fun _ _ => True) s := by
  rw [← ends_eta fun _ _ => True, withLock, wp_bind, wp_issue]
  refine ⟨trivial, fun r s' hr => ?_⟩
  obtain ⟨hC, s₁, ha, hR, hJ⟩ := hr
  cases r with
  | error e => trivial
  | ok u =>
    show wp _ _ (Fallible.run _) _ _
    rw [wp_bind, wp_attempt]
    have htook : v = vmid → s₁ = { s with holder := some p } := by
      intro hv
      change (if v = vmid then _ else _) at ha
      rw [if_pos hv] at ha
      rcases ha with ⟨-, -, h⟩ | ⟨hfail, -⟩
      · exact h
      · exact absurd rfl (hfail u)
    refine wp_mono (hbody s' hJ ?_ ?_) fun r s₂ hs₂ => ?_
    · exact Owns.relied (fun hv => by rw [htook hv]) hR
    · intro hv
      have hheld := hR.held (by rw [htook hv])
      have hseen := hR.seen
      have hversions := hR.versions
      rw [htook hv] at hseen hversions hheld
      refine ⟨hseen, hversions, ?_⟩
      rintro rfl
      obtain ⟨-, hc, hf⟩ := hheld
      obtain ⟨hc', hf'⟩ := hC hv ⟨u, rfl⟩
      rw [hseen, hc, hf]
      exact ⟨hc', hf'⟩
    · rw [wp_bind, wp_issue]
      exact ⟨fun hv => hs₂ hv, fun _ _ _ => by cases r <;> trivial⟩

/-- Reading the document: under the lock, what was read is at work at once. -/
theorem wp_readDoc_saw :
    wp (world x vmid p) (Obliged x vmid p) (readDoc x v).run
      (Ends (fun r s' => (Owns vmid v p s → Owns vmid v p s') ∧ ∀ read, r = some read →
        ∃ out, Decoded x v out read ∧ Saw vmid v p read.text s' ∧
          (Owns vmid v p s → Numbered x vmid s → Works vmid v p read.text s'))
        fun _ s' => Owns vmid v p s → Owns vmid v p s') s := by
  rw [readDoc, wp_issue]
  refine ⟨trivial, fun r s' hr => ?_⟩
  obtain ⟨-, s₁, ha, hR, -⟩ := hr
  have hsaw : v = vmid → s₁ = { s with seen := Function.update s.seen p s.versions.length } ∧
      ∀ out, r = .ok out → out.status = 0 → s.versions.getLast? = some out.stdout := by
    intro hv
    change (if v = vmid then _ else _) at ha
    rw [if_pos hv] at ha
    exact ⟨ha.1, fun out hout => (ha.2 out hout).1⟩
  have howns : Owns vmid v p s → Owns vmid v p s' := fun h =>
    Owns.relied (fun hv => by rw [(hsaw hv).1]; exact h hv) hR
  cases r with
  | error e => exact howns
  | ok out =>
    show Ends _ _ (readOutput x v out) s'
    cases ho : readOutput x v out with
    | error e => exact howns
    | ok a =>
      refine ⟨howns, ?_⟩
      rintro read rfl
      have hd := decoded_of_readOutput ho
      have hsaw₁ : Saw vmid v p read.text s₁ := by
        intro hv
        obtain ⟨rfl, hlast⟩ := hsaw hv
        have hlast := hlast out rfl hd.status
        rw [← hd.text, List.getLast?_eq_getElem?] at hlast
        show Shared.version _ (Function.update s.seen p s.versions.length p) = _
        rw [Function.update_self]
        cases hlen : s.versions.length with
        | zero =>
          rw [List.length_eq_zero_iff.mp hlen] at hlast
          cases hlast
        | succ n =>
          rw [hlen] at hlast
          exact hlast
      refine ⟨out, hd, hsaw₁.relied hR, fun h hs => Works.relied ⟨?_, hsaw₁, fun hv => ?_⟩ hR⟩
      · exact fun hv => by rw [(hsaw hv).1]; exact h hv
      · obtain ⟨rfl, -⟩ := hsaw hv
        show s.inCompose ≤ Function.update s.seen p s.versions.length p ∧
          s.inFacts ≤ Function.update s.seen p s.versions.length p
        rw [Function.update_self]
        exact ⟨hs.compose_le, hs.facts_le⟩

/-- What a plain command keeps, for the rules of loading. -/
theorem Works.plain (s : Shared) (c : Cmd) (r : c.Answer) (s' : Shared) (hc : c.Plain)
    (h : Works vmid v p text s) (hr : (world x vmid p).reply s c r s') : Works vmid v p text s' :=
  h.reply hc.inside hr

/-- The pct half, with the config read again where it changed something. -/
theorem wp_refresh_works {ctx : Ctx} {g : Guest} {changed : ℕ}
    (hg : LoadedFrom x ctx g.config.hostname v text g) (h : Works vmid v p text s) :
    wp (world x vmid p) (Obliged x vmid p) (refreshIfChanged ctx g changed).run
      (Ends (fun g' s => Works vmid v p text s ∧ LoadedFrom x ctx g'.config.hostname v text g')
        fun _ => Owns vmid v p) s := by
  unfold refreshIfChanged
  split_ifs
  · exact wp_ends_mono (wp_refreshConfig_any hg Works.plain (fun _ _ hc _ => obliged_of_plain hc) h)
      (fun _ _ h => h) fun _ _ h => h.owns
  · exact ⟨h, hg⟩

/-- A guest loaded under the lock, and what follows. -/
theorem wp_load_works {α : Type} {ctx : Ctx} {f : Guest → M α} (howns : Owns vmid v p s)
    (hs : Numbered x vmid s) (hf : ∀ g text s, Works vmid v p text s →
      LoadedFrom x ctx g.config.hostname v text g →
      wp (world x vmid p) (Obliged x vmid p) (f g).run (fun _ => Owns vmid v p) s) :
    wp (world x vmid p) (Obliged x vmid p) (do
      requireRunning ctx v
      let g ← load x ctx v
      f g : M α).run (fun _ => Owns vmid v p) s := by
  rw [← ends_eta fun _ => Owns vmid v p]
  refine wp_bind_inv (P := fun s => Owns vmid v p s ∧ Numbered x vmid s)
    (wp_only (plain_requireRunning ctx v) (fun s c r s' hc hP hr => ?_)
      (fun _ _ hc _ => obliged_of_plain hc) ⟨howns, hs⟩) (fun _ s₁ h₁ => ?_) fun _ _ h => h.1
  · obtain ⟨-, s₁, -, -, hJ⟩ := id hr
    exact ⟨hP.1.reply hc.inside hr, hJ⟩
  · rw [load, wp_bind, wp_bind]
    refine wp_ends_mono wp_readDoc_saw ?_ fun _ _ h => h h₁.1
    rintro r s₂ ⟨howns₂, hread⟩
    cases r with
    | none => exact howns₂ h₁.1
    | some read =>
      obtain ⟨out, hd, -, hworks⟩ := hread read rfl
      refine wp_ends_mono (wp_loadWith_any hd Works.plain (fun _ _ hc _ => obliged_of_plain hc)
        (hworks h₁.1 h₁.2)) ?_ fun _ _ h => h.owns
      rintro g s₃ ⟨h₃, -, hg⟩
      rw [ends_eta fun _ => Owns vmid v p]
      exact hf g read.text s₃ h₃ hg

/-- The docker half, and nothing after it. -/
theorem wp_docker_owns {ctx : Ctx} {host : Option Text} {g : Guest} {o : Options}
    (hg : LoadedFrom x ctx host v text g) (h : Works vmid v p text s) :
    wp (world x vmid p) (Obliged x vmid p) (do
      let _ ← dockerApplyGuest x ctx g o
      pure () : M Unit).run (fun _ => Owns vmid v p) s := by
  rw [← ends_eta fun _ => Owns vmid v p]
  exact wp_bind_inv (wp_docker_works hg h) (fun _ _ h => h.owns) fun _ _ h => h.owns

/-- **Every verb of a party that reads under the lock (proved).** -/
theorem wp_hand {n : ℕ} {prog : Prog sig Unit} (hstart : Starts x (.hand n) prog) :
    wp (world x vmid (.hand n)) (Obliged x vmid (.hand n)) prog (fun _ _ => True) s := by
  cases hstart with
  | pctApply _ ctx v =>
    refine wp_void (wp_lock_owns fun s' hJ howns _ => wp_load_works howns hJ ?_)
    intro g text s h _
    exact wp_mono (wp_pct_works h) fun _ _ h => h.owns
  | dockerApply _ ctx v o =>
    refine wp_void (wp_lock_owns fun s' hJ howns _ => wp_load_works howns hJ ?_)
    intro g text s h hg
    exact wp_docker_owns hg h
  | apply _ ctx v o =>
    refine wp_void (wp_lock_owns fun s' hJ howns _ => wp_load_works howns hJ ?_)
    intro g text s h hg
    rw [← ends_eta fun _ => Owns _ _ _]
    refine wp_bind_inv (wp_pct_works h) (fun n s₁ h₁ => ?_) fun _ _ h => h.owns
    rw [wp_bind]
    refine wp_ends_mono (wp_refresh_works hg h₁) ?_ fun _ _ h => h
    rintro g' s₂ ⟨h₂, hg'⟩
    rw [ends_eta fun _ => Owns _ _ _]
    exact wp_docker_owns hg' h₂

/-! ### The loop -/

/-- The attempt for a version the loop has read. -/
theorem wp_attempt_saw {ctx : Ctx} {out : Output} {read : Read} (hd : Decoded x v out read)
    (h : Saw vmid v .loop read.text s) :
    wp (world x vmid .loop) (Obliged x vmid .loop) (attempt x ctx v read).run
      (fun _ _ => True) s := by
  refine wp_lock_owns fun s' _ howns hlock => ?_
  have hworks : Works vmid v .loop read.text s' := by
    refine ⟨howns, fun hv => ?_, fun hv => ((hlock hv).2.2 rfl)⟩
    rw [(hlock hv).1]
    exact version_of_prefix (hlock hv).2.1 (h hv)
  rw [← ends_eta fun _ => Owns vmid v .loop, wp_bind]
  refine wp_ends_mono (wp_loadWith_any hd Works.plain (fun _ _ hc _ => obliged_of_plain hc) hworks)
    ?_ fun _ _ h => h.owns
  rintro g s₁ ⟨h₁, -, hg⟩
  have hdocker : ∀ {g' : Guest} {s₂ : Shared}, LoadedFrom x ctx g'.config.hostname v read.text g' →
      Works vmid v .loop read.text s₂ →
      wp (world x vmid .loop) (Obliged x vmid .loop) (dockerHalf x ctx g').run
        (Ends (fun _ => Owns vmid v .loop) fun _ => Owns vmid v .loop) s₂ := by
    intro g' s₂ hg' h₂
    refine wp_bind_inv (wp_only (only_issue (K := Cmd.Plain) trivial _) Works.plain
      (fun _ _ hc _ => obliged_of_plain hc) h₂) (fun facts s₃ h₃ => ?_) fun _ _ h => h.owns
    dsimp only
    split_ifs
    · refine wp_bind_inv (wp_docker_works hg' h₃) (fun started s₄ h₄ => ?_) fun _ _ h => h.owns
      rw [ends_eta fun _ => Owns vmid v .loop]
      exact wp_mono (wp_only (plain_report _) Works.plain (fun _ _ hc _ => obliged_of_plain hc) h₄)
        fun _ _ h => h.owns
    · exact h₃.owns
  rw [wp_bind, pctHalf]
  split_ifs
  · refine wp_bind_inv (wp_pct_works h₁) (fun n s₂ h₂ => ?_) fun _ _ h => h.owns
    split_ifs
    · refine wp_bind_inv (wp_only (plain_report _) Works.plain
        (fun _ _ hc _ => obliged_of_plain hc) h₂) (fun _ s₃ h₃ => ?_) fun _ _ h => h.owns
      exact wp_ends_mono (wp_refreshConfig_any hg Works.plain
        (fun _ _ hc _ => obliged_of_plain hc) h₃) (fun g' s₄ h₄ => hdocker h₄.2 h₄.1)
        fun _ _ h => h.owns
    · exact hdocker hg h₂
  · exact hdocker hg h₁

theorem wp_visit_saw {ctx : Ctx} {memo : Memo} {l : Listed} :
    wp (world x vmid .loop) (Obliged x vmid .loop) (visit x ctx memo l) (fun _ _ => True) s := by
  unfold visit
  split_ifs
  · trivial
  · rw [wp_seq]
    rw [← ends_eta fun r s' => wp (world x vmid .loop) _ _ _ s']
    refine wp_ends_mono wp_readDoc_saw ?_ fun e s' _ => ⟨trivial, fun _ _ _ => trivial⟩
    rintro r s' ⟨-, hread⟩
    cases r with
    | none => trivial
    | some read =>
      obtain ⟨out, hd, hsaw, -⟩ := hread read rfl
      dsimp only
      split_ifs
      · trivial
      · rw [wp_seq]
        refine wp_mono (wp_attempt_saw hd hsaw) fun r s₁ _ => ?_
        cases r with
        | error e => exact ⟨trivial, fun _ _ _ => ⟨trivial, fun _ _ _ => trivial⟩⟩
        | ok u => exact ⟨trivial, fun _ _ _ => trivial⟩

theorem wp_pass_saw {ctx : Ctx} {memo : Memo} :
    wp (world x vmid .loop) (Obliged x vmid .loop) (pass x ctx memo) (fun _ _ => True) s := by
  have hall : ∀ (ls : List Listed) (memo : Memo) (s : Shared),
      wp (world x vmid .loop) (Obliged x vmid .loop) (visitAll x ctx memo ls) (fun _ _ => True) s := by
    intro ls
    induction ls with
    | nil => exact fun _ _ => trivial
    | cons l ls ih =>
      intro memo s
      rw [visitAll, wp_seq]
      exact wp_mono wp_visit_saw fun memo' s' _ => ih memo' s'
  rw [pass, wp_seq, wp_ask]
  refine ⟨trivial, fun r s' _ => ?_⟩
  cases r with
  | error e => trivial
  | ok ls =>
    show wp (world x vmid .loop) _ (visitAll x ctx memo ls >>= _) _ _
    rw [wp_seq]
    exact wp_mono (hall ls memo s') fun _ _ _ => trivial

end Party

/-! ### Every interleaving -/

section

variable {x : External} {vmid : ℕ}

/-- **The parties keep to the lock (proved).** -/
theorem discipline : Discipline (threads x vmid) (Unpassed vmid) Relied (Numbered x vmid)
    (Obliged x vmid) where
  refl := relied_refl
  trans _ _ _ _ h h' := h.trans h'
  inv _ _ _ _ _ hs _ hI ha := hs.acted (acted_of_act ha hI)
  others _ _ _ _ _ _ hq _ _ hI ha := relied_of_acted hq (acted_of_act (x := x) ha hI)
  env _ _ hs h := hs.written h
  starts p prog s hstart _ := by
    cases p with
    | hand n => exact wp_hand hstart
    | loop =>
      cases hstart with
      | pass ctx memo => exact wp_void wp_pass_saw

/-- A guest for which nothing has been applied, and which nobody is at. -/
structure Fresh (s : Shared) : Prop where
  holder : s.holder = none
  compose : s.compose = none
  facts : s.facts = none
  seen : ∀ p, s.seen p = 0
  inCompose : s.inCompose = 0
  inFacts : s.inFacts = 0

theorem Fresh.numbered {s : Shared} (h : Fresh s) : Numbered x vmid s where
  compose_le := by
    rw [h.inCompose]
    exact Nat.zero_le _
  facts_le := by
    rw [h.inFacts]
    exact Nat.zero_le _
  seen_le p := by
    rw [h.seen]
    exact Nat.zero_le _
  rendered text ht := by
    rw [h.compose] at ht
    cases ht
  named f hf := by
    rw [h.facts] at hf
    cases hf

/-- **Neither number ever goes down (proved)**, in every interleaving in which nothing newer than
what the loop has read is applied before it takes the lock; and the numbers say what is there. -/
theorem never_backwards {s : Shared} {w w' : Crew sig Shared Party} (hs : Fresh s)
    (h : Steps (threads x vmid) (Unpassed vmid) (.idle s) w)
    (h' : Steps (threads x vmid) (Unpassed vmid) w w') :
    Numbered x vmid w.state ∧ w.state.inCompose ≤ w'.state.inCompose ∧
      w.state.inFacts ≤ w'.state.inFacts := by
  have hw : Orderly (threads x vmid) (Unpassed vmid) Relied (Numbered x vmid) (Obliged x vmid) w :=
    discipline.steps (orderly_idle hs.numbered) h
  refine ⟨hw.inv, discipline.mono
    (M := fun s s' => s.inCompose ≤ s'.inCompose ∧ s.inFacts ≤ s'.inFacts)
    (fun _ => ⟨le_refl _, le_refl _⟩)
    (fun _ _ _ h₁ h₂ => ⟨h₁.1.trans h₂.1, h₁.2.trans h₂.2⟩) ?_ ?_ hw h'⟩
  · intro p s c r s' _ _ hI ha
    cases acted_of_act ha hI with
    | composed _ hle _ _ => exact ⟨hle, le_refl _⟩
    | recorded _ hle _ _ => exact ⟨le_refl _, hle⟩
    | _ => exact ⟨le_refl _, le_refl _⟩
  · rintro s s' _ ⟨text, -, rfl⟩
    exact ⟨le_refl _, le_refl _⟩

end

/-! ### Three parties -/

/-- Whether a command was answered without a failure. -/
def Cmd.succeeds : (c : Cmd) → c.Answer → Bool
  | .version, r => r.isOk
  | .loadConfig, r => match r with
    | .failed _ => false
    | _ => true
  | .list _, r => r.isOk
  | .metaGet _, r => r.toOption.any fun out => out.status = 0 ∨ out.status = 2
  | .exec _ _, r => r.toOption.any (·.status = 0)
  | .status _ _, r => r.isOk
  | .config _ _, r => r.isOk
  | .dockerInfo _, r => r.isOk
  | .ps _, r => r.isOk
  | .readCompose _, r => r.isOk
  | .readFacts _, r => r.isOk
  | .lock _ _, r | .pct _ _ _, r | .dockerInstall _, r | .writeCompose _ _, r | .pull _, r | .up _, r
  | .writeFacts _ _, r => r.isOk
  | .now, _ | .wallClock, _ | .sleep _, _ | .notify _, _ | .report _, _ | .unlock _, _ => true

/-- A node with one running guest, on which everything succeeds but a lock that is held. -/
def webAnswer (p : Party) (s : Shared) : (c : Cmd) → c.Answer × Shared
  | .version => (.ok none, s)
  | .loadConfig => (.notFound, s)
  | .now => (0, s)
  | .wallClock => ("2026-01-01T00:00:00+00:00".toList, s)
  | .sleep _ | .notify _ | .report _ => ((), s)
  | .unlock v => ((), if v = 105 then { s with holder := none } else s)
  | .list _ => (.ok [⟨105, true, [], false⟩], s)
  | .metaGet v =>
    if v = 105 then (.ok (storeOutput s.versions.getLast?),
      { s with seen := Function.update s.seen p s.versions.length })
    else (.ok (storeOutput none), s)
  | .lock v _ =>
    if v = 105 then
      if s.holder = none then (.ok (), { s with holder := some p }) else (bail "busy", s)
    else (.ok (), s)
  | .dockerInstall _ | .pull _ | .up _ | .pct _ _ _ => (.ok (), s)
  | .status _ _ => (.ok .running, s)
  | .config _ _ => (.ok (some webConf), s)
  | .dockerInfo _ => (.ok 0, s)
  | .exec _ _ => (.ok ⟨0, [], []⟩, s)
  | .ps _ => (.ok [], s)
  | .readCompose v => (.ok (if v = 105 then s.compose else none), s)
  | .readFacts v => (.ok (if v = 105 then s.facts else none), s)
  | .writeCompose v text =>
    (.ok (), if v = 105 then { s with compose := some text, inCompose := s.seen p } else s)
  | .writeFacts v facts =>
    (.ok (), if v = 105 then { s with facts := some facts, inFacts := s.seen p } else s)

theorem webAnswer_act (p : Party) (s : Shared) (c : Cmd) :
    Act 105 p s c (webAnswer p s c).1 (webAnswer p s c).2 := by
  cases c with
  | metaGet v =>
    by_cases hv : v = 105
    · subst hv
      refine ⟨rfl, fun out hout => ?_⟩
      obtain rfl : storeOutput s.versions.getLast? = out := Except.ok.inj hout
      cases hlast : s.versions.getLast? with
      | none => exact ⟨nofun, fun _ => List.getLast?_eq_none_iff.mp hlast⟩
      | some text => exact ⟨fun _ => rfl, nofun⟩
    · dsimp only [Act, webAnswer]
      rw [if_neg hv, if_neg hv]
  | lock v w =>
    dsimp only [Act, webAnswer]
    split_ifs with hv hnone
    · exact .inl ⟨rfl, hnone, rfl⟩
    · exact .inr ⟨fun _ => bail_ne_ok, rfl⟩
    · rfl
  | unlock v => rfl
  | readCompose v => exact ⟨rfl, by rintro rfl _ ⟨⟩; rfl⟩
  | readFacts v => exact ⟨rfl, by rintro rfl _ ⟨⟩; rfl⟩
  | writeCompose v text =>
    by_cases hv : v = 105
    · exact .inl ⟨hv, if_pos hv⟩
    · exact .inr ⟨if_neg hv, fun h => absurd h hv⟩
  | writeFacts v f =>
    by_cases hv : v = 105
    · exact .inl ⟨hv, if_pos hv⟩
    · exact .inr ⟨if_neg hv, fun h => absurd h hv⟩
  | _ => rfl

/-- A document is written, if it is new. -/
def webWrite (image : Text) : Move sig Shared Party :=
  .env fun s => if webText image ∈ s.versions then none
    else some { s with versions := s.versions ++ [webText image] }

theorem webWrite_legal (image : Text) : (webWrite image).Legal (threads webExternal 105) := by
  intro s s' hs
  dsimp only at hs
  split_ifs at hs with hmem
  cases hs
  exact ⟨_, hmem, rfl⟩

def webLoop : Move sig Shared Party := .start .loop (pass webExternal webCtx []).void

def webHand : Move sig Shared Party :=
  .start (.hand 0) (dockerApply webExternal webCtx 105 ⟨false, false, false⟩).run.void

theorem webMoves_legal {moves : List (Move sig Shared Party)}
    (h : ∀ m ∈ moves, m = webLoop ∨ m = webHand ∨ (∃ image, m = webWrite image) ∨
      ∃ p n, m = .turn p n) : ∀ m ∈ moves, m.Legal (threads webExternal 105) := by
  intro m hm
  rcases h m hm with rfl | rfl | ⟨image, rfl⟩ | ⟨p, n, rfl⟩
  · exact Starts.pass _ _
  · exact Starts.dockerApply _ _ _ _
  · exact webWrite_legal image
  · trivial

def webFresh : Shared where
  versions := []
  holder := none
  compose := none
  facts := none
  seen _ := 0
  inCompose := 0
  inFacts := 0

theorem webFresh_fresh : Fresh webFresh := ⟨rfl, rfl, rfl, fun _ => rfl, rfl, rfl⟩

/-- Every command succeeds. -/
def unfailing (_ : Party) (_ : Shared) (c : Cmd) (r : c.Answer) : Bool := c.succeeds r

/-- The loop has read the first document when the second one is written and applied by hand. -/
def webPassed : Crew sig Shared Party :=
  play webAnswer unfailing (.idle webFresh)
    [webWrite "nginx", webLoop, .turn .loop 2, webWrite "caddy", webHand, .turn (.hand 0) 100]

/-- The loop has gone on. -/
def webOverwritten : Crew sig Shared Party := play webAnswer unfailing webPassed [.turn .loop 100]

/-- **The loop applies what it read before it waited.**  Every command succeeds, and the second
document's file and facts are overwritten with the first one's. -/
theorem goes_backwards :
    (Steps (threads webExternal 105) (fun p s c r => unfailing p s c r = true) (.idle webFresh)
        webPassed ∧
      Steps (threads webExternal 105) (fun p s c r => unfailing p s c r = true) webPassed
        webOverwritten) ∧
    (webOverwritten.state.inCompose < webPassed.state.inCompose ∧
      webOverwritten.state.inFacts < webPassed.state.inFacts) ∧
    webPassed.state.compose = some (webRendered "caddy") ∧
      webOverwritten.state.compose = some (webRendered "nginx") := by
  have hsteps : ∀ {moves : List (Move sig Shared Party)} {w : Crew sig Shared Party},
      (∀ m ∈ moves, m.Legal (threads webExternal 105)) →
      Steps (threads webExternal 105) (fun p s c r => unfailing p s c r = true) w
        (play webAnswer unfailing w moves) :=
    fun hlegal => steps_play webAnswer_act (fun _ _ _ _ h => h) hlegal _
  refine ⟨⟨hsteps (webMoves_legal (by simp)), hsteps (webMoves_legal (by simp))⟩, ?_⟩
  decide +kernel

/-- What `Unpassed` says, computed. -/
def unpassed : Party → Shared → (c : Cmd) → c.Answer → Bool
  | .loop, s, .lock _ _, _ => s.inCompose ≤ s.seen .loop ∧ s.inFacts ≤ s.seen .loop
  | _, _, _, _ => true

theorem unpassed_ok (p : Party) (s : Shared) (c : Cmd) (r : c.Answer)
    (h : unpassed p s c r = true) : Unpassed 105 p s c r := by
  cases p with
  | hand n => trivial
  | loop =>
    cases c with
    | lock v w => exact fun _ _ => of_decide_eq_true h
    | _ => trivial

/-- The loop has applied the first document when the second one is written. -/
def webApplied : Crew sig Shared Party :=
  play webAnswer unpassed (.idle webFresh) [webWrite "nginx", webLoop, .turn .loop 100]

/-- The hand-run verb has been run after it. -/
def webUpdated : Crew sig Shared Party :=
  play webAnswer unpassed webApplied [webWrite "caddy", webHand, .turn (.hand 0) 100]

/-- A pass, and then a verb: the numbers go from 1 to 2. -/
theorem never_backwards_web :
    (webApplied.state.inCompose = 1 ∧ webUpdated.state.inCompose = 2) ∧
      webApplied.state.inCompose ≤ webUpdated.state.inCompose ∧
      webApplied.state.inFacts ≤ webUpdated.state.inFacts := by
  have hsteps : ∀ {moves : List (Move sig Shared Party)} {w : Crew sig Shared Party},
      (∀ m ∈ moves, m.Legal (threads webExternal 105)) →
      Steps (threads webExternal 105) (Unpassed 105) w (play webAnswer unpassed w moves) :=
    fun hlegal => steps_play webAnswer_act unpassed_ok hlegal _
  have h := never_backwards webFresh_fresh
    (show Steps _ _ _ webApplied from hsteps (webMoves_legal (by simp)))
    (show Steps _ _ _ webUpdated from hsteps (webMoves_legal (by simp)))
  exact ⟨by decide +kernel, h.2⟩

end PveCompose
