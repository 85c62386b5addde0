import PveCompose.Applied
import PveCompose.Order
import PveCompose.Poll
import PveCompose.Session
import PveCompose.Visit

/-!
# The memo as a shortcut (`ops/daemon.rs`)

One guest: its document, its facts and its lock.  Between any two commands of the loop, documents are
written and hand-run verbs take the lock, record facts and give it back.  No attempt of the loop
fails.

* `hand_changes` — **PROVED**: nothing a hand-run verb does to the guest is anything but such a change;
* `Agrees` — **the invariant**: what is remembered is the document the loop attempted last, and while
  that one is the current one the facts name it;
* `agrees_of_passes` — **PROVED**: the invariant holds in every run in which no change is harmful
  (`Harmless`), and `passes_turn`: a turn of the loop continues such a run;
* `skip_is_applied` — **PROVED**: then a guest that is skipped has facts that name its document;
* `skip_is_not_applied` — a document that is written, replaced and applied by hand, and written back.
-/

namespace PveCompose

open Programs

/-- What is shared about the guest. -/
structure Desk where
  doc : Option Text
  facts : Option Facts
  /-- Who holds the guest's lock. -/
  holder : Option Party
  /-- The document the loop read last: a history variable. -/
  reading : Option Text
  /-- The document of the loop's last attempt: a history variable. -/
  tried : Option Text
deriving DecidableEq

namespace Desk

/-- The facts name a document of this digest. -/
def Named (s : Desk) (digest : Text) : Prop := s.facts.any (·.digest = digest) = true

/-- The loop reads the document. -/
def read (s : Desk) : Desk := { s with reading := s.doc }

@[simp] theorem read_facts (s : Desk) : s.read.facts = s.facts := rfl

def taken (s : Desk) (p : Party) : Desk :=
  { s with holder := some p, tried := if p = .loop then s.reading else s.tried }

def released (s : Desk) : Desk := { s with holder := none }

def recorded (s : Desk) (f : Facts) : Desk := { s with facts := some f }

end Desk

/-- What a command of a party does to the guest, for each answer it may get. -/
def DeskAct (vmid : ℕ) (p : Party) (s : Desk) : (c : Cmd) → c.Answer → Desk → Prop
  | .metaGet v, r, s' =>
      if v = vmid then
        s' = (if p = .loop then s.read else s) ∧ ∀ out, r = .ok out →
          (out.status = 0 → s.doc = some out.stdout) ∧ (out.status = 2 → s.doc = none)
      else s' = s
  | .lock v _, r, s' =>
      if v = vmid then
        r = .ok () ∧ s.holder = none ∧ s' = s.taken p ∨ (∀ u, r ≠ .ok u) ∧ s' = s
      else s' = s
  | .unlock v, _, s' => s' = if v = vmid then s.released else s
  | .readFacts v, r, s' => s' = s ∧ (v = vmid → ∀ a, r = .ok a → a = s.facts)
  | .writeFacts v f, r, s' =>
      v = vmid ∧ s' = s.recorded f ∨ s' = s ∧ (v = vmid → ∀ u, r ≠ .ok u)
  | _, _, s' => s' = s

/-! ### What others do -/

/-- A change that is not the loop's. -/
inductive Change where
  /-- The document is written, or removed. -/
  | write : Option Text → Change
  | take : ℕ → Change
  | record : ℕ → Facts → Change
  | release : ℕ → Change

namespace Change

/-- The lock has one holder, and facts are recorded under it. -/
def Can (s : Desk) : Change → Prop
  | write _ => True
  | take _ => s.holder = none
  | record n _ | release n => s.holder = some (.hand n)

def on (s : Desk) : Change → Desk
  | write doc => { s with doc }
  | take n => s.taken (.hand n)
  | record _ f => s.recorded f
  | release _ => s.released

@[simp] theorem write_doc (s : Desk) (doc : Option Text) : ((write doc).on s).doc = doc := rfl

@[simp] theorem write_facts (s : Desk) (doc : Option Text) : ((write doc).on s).facts = s.facts := rfl

@[simp] theorem release_facts (s : Desk) (n : ℕ) : ((release n).on s).facts = s.facts := rfl

@[simp] theorem record_facts (s : Desk) (n : ℕ) (f : Facts) :
    ((record n f).on s).facts = some f := rfl

end Change

/-- A condition on a change and the state it is made in. -/
abbrev Restraint := Change → Desk → Prop

/-- One change by others. -/
def Other (C : Restraint) (s s' : Desk) : Prop := ∃ ch : Change, ch.Can s ∧ C ch s ∧ s' = ch.on s

/-- The loop's world: before each command is answered, others may have changed the guest. -/
def deskWorld (vmid : ℕ) (C : Restraint) : World sig Desk :=
  ⟨fun s c r s' => ∃ s₁, Relation.ReflTransGen (Other C) s s₁ ∧ DeskAct vmid .loop s₁ c r s'⟩

/-- Outside the loop's own attempts, the document the loop last attempted is written back only while
the facts name it; and no facts of another document are recorded while that one is the current one. -/
def Harmless (x : External) : Restraint
  | .write doc, s => s.holder ≠ some .loop → doc = s.tried → ∀ t, doc = some t → s.Named (x.digest t)
  | .record _ f, s => ∀ t, s.doc = some t → s.tried = some t → f.digest = x.digest t
  | _, _ => True

/-! ### Hand-run verbs -/

/-- The world of the hand-run verb `n`: others do not touch its lock. -/
def handWorld (vmid n : ℕ) : World sig Desk :=
  ⟨fun s c r s' => ∃ s₁, (s.holder = some (.hand n) → s₁.holder = some (.hand n)) ∧
    DeskAct vmid (.hand n) s₁ c r s'⟩

/-- Whatever the command does, it is a change the others may make. -/
def Changes (vmid n : ℕ) (s : Desk) (c : Cmd) : Prop :=
  ∀ s₁ r s', (s.holder = some (.hand n) → s₁.holder = some (.hand n)) →
    DeskAct vmid (.hand n) s₁ c r s' → s' = s₁ ∨ ∃ ch : Change, ch.Can s₁ ∧ s' = ch.on s₁

section

variable {x : External} {vmid n v : ℕ} {ctx : Ctx} {p : Party} {C : Restraint} {s s' : Desk}

/-- A command inside a session leaves the lock alone. -/
theorem holder_of_at {c : Cmd} {r : c.Answer} (hc : c.At v) (h : DeskAct vmid p s c r s') :
    s'.holder = s.holder := by
  cases c with
  | metaGet w =>
    dsimp only [DeskAct] at h
    split_ifs at h
    · rw [h.1, Desk.read]
    · rw [h.1]
    · rw [h]
  | writeFacts w f =>
    rcases h with ⟨-, rfl⟩ | ⟨rfl, -⟩
    · rfl
    · rfl
  | readFacts w => rw [h.1]
  | lock w n => exact hc.elim
  | unlock w => exact hc.elim
  | _ => exact congrArg Desk.holder h

/-- **A hand-run verb (proved)**: nothing it does to the guest is anything but a change by others. -/
theorem hand_changes (verb : Verb) :
    wp (handWorld vmid n) (Changes vmid n) (verb.run x ctx v).run (fun _ _ => True) s := by
  have hstatus : ∀ {s : Desk} {node : Text} {r s'},
      (handWorld vmid n).reply s (.status node v) r s' →
      (v = vmid → s.holder = some (.hand n)) → v = vmid → s'.holder = some (.hand n) := by
    rintro s node r s' ⟨s₁, hkeep, rfl⟩ hs hv
    exact hkeep (hs hv)
  have h : Sessions (handWorld vmid n) (Changes vmid n) ctx.node v
      (fun s => v = vmid → s.holder = some (.hand n))
      (fun s => v = vmid → s.holder = some (.hand n)) := by
    refine ⟨?_, fun hs hr => hstatus hr hs, fun hs hr => hstatus hr hs, ?_, id, ?_, ?_, ?_, ?_⟩
    · rintro s s' ⟨s₁, -, h⟩ hv
      dsimp only [DeskAct] at h
      rw [if_pos hv] at h
      rcases h with ⟨-, -, rfl⟩ | ⟨hfail, -⟩
      · rfl
      · exact absurd rfl (hfail ())
    · rintro s c r s' hc hs ⟨s₁, hkeep, h⟩ hv
      exact (holder_of_at hc h).trans (hkeep (hs hv))
    · intro s s₁ r s' _ h
      dsimp only [DeskAct] at h
      split_ifs at h
      · rcases h with ⟨-, hnone, rfl⟩ | ⟨-, rfl⟩
        · exact .inr ⟨.take n, hnone, rfl⟩
        · exact .inl rfl
      · exact .inl h
    · intro s _ s₁ r s' _ h
      exact .inl h
    · intro s c hc hs s₁ r s' hkeep h
      cases c with
      | metaGet w =>
        dsimp only [DeskAct] at h
        split_ifs at h with _ hp
        · exact absurd hp nofun
        · exact .inl h.1
        · exact .inl h
      | writeFacts w f =>
        obtain rfl : w = v := hc
        rcases h with ⟨hv, rfl⟩ | ⟨rfl, -⟩
        · exact .inr ⟨.record n f, hkeep (hs hv), rfl⟩
        · exact .inl rfl
      | readFacts w => exact .inl h.1
      | lock w n => exact hc.elim
      | unlock w => exact hc.elim
      | _ => exact .inl h
    · intro s hs s₁ r s' hkeep h
      dsimp only [DeskAct] at h
      split_ifs at h with hv
      · exact .inr ⟨.release n, hkeep (hs hv), h⟩
      · exact .inl h
  exact h.wp_verb verb

/-! ### The invariant -/

/-- What is remembered is the document attempted last, and while that one is the current one and its
docker policy is `auto`, the facts name it. -/
structure Agrees (x : External) (vmid : ℕ) (memo : Memo) (s : Desk) : Prop where
  free : s.holder ≠ some .loop
  memo : ∀ d, Assoc.get? vmid memo = some d → ∃ t, s.tried = some t ∧ x.digest t = d
  named : ∀ t doc, s.doc = some t → s.tried = some t → parse x.docFromYaml t = .ok doc →
    doc.policy.docker = .auto → s.Named (x.digest t)

variable {memo memo' : Memo} {tr : List (Event sig)}

/-- **The step lemma for others (proved).** -/
theorem Agrees.other (h : Agrees x vmid memo s) (ho : Other (Harmless x) s s') :
    Agrees x vmid memo s' := by
  obtain ⟨ch, hcan, hharm, rfl⟩ := ho
  cases ch with
  | write doc => exact ⟨h.free, h.memo, fun t _ hdoc htried _ _ =>
      hharm h.free (Eq.trans hdoc (Eq.symm htried)) t hdoc⟩
  | take n => exact ⟨by simp [Change.on, Desk.taken], h.memo, h.named⟩
  | record n f =>
    refine ⟨h.free, h.memo, fun t _ hdoc htried _ _ => ?_⟩
    show decide (f.digest = _) = true
    exact decide_eq_true (hharm t hdoc htried)
  | release n => exact ⟨nofun, h.memo, h.named⟩

/-- **The step lemma of a run (proved).** -/
theorem Agrees.others (h : Agrees x vmid memo s)
    (ho : Relation.ReflTransGen (Other (Harmless x)) s s') : Agrees x vmid memo s' := by
  induction ho with
  | refl => exact h
  | tail _ ho ih => exact ih.other ho

/-- Others leave the loop its lock, what it read and what it attempts, and the facts. -/
theorem others_of_loop (ho : Relation.ReflTransGen (Other C) s s') (h : s.holder = some .loop) :
    s'.holder = some .loop ∧ s'.tried = s.tried ∧ s'.facts = s.facts := by
  induction ho with
  | refl => exact ⟨h, rfl, rfl⟩
  | tail _ ho ih =>
    obtain ⟨ch, hcan, -, rfl⟩ := ho
    obtain ⟨hholder, htried, hfacts⟩ := ih
    cases ch with
    | write doc => exact ⟨hholder, htried, hfacts⟩
    | take n => exact absurd (hcan.symm.trans hholder) nofun
    | record n f =>
      rw [Change.Can, hholder] at hcan
      exact absurd hcan nofun
    | release n =>
      rw [Change.Can, hholder] at hcan
      exact absurd hcan nofun

theorem reading_of_others (ho : Relation.ReflTransGen (Other C) s s') : s'.reading = s.reading := by
  induction ho with
  | refl => rfl
  | tail _ ho ih =>
    obtain ⟨ch, -, -, rfl⟩ := ho
    cases ch <;> exact ih

/-- A command of an attempt does nothing to the guest but record facts in it. -/
theorem eq_of_half {c : Cmd} {r : c.Answer} (hc : c.OfHalf v) (h : DeskAct vmid p s c r s') :
    s' = s := by
  cases hc with
  | plain hc =>
    cases c with
    | readFacts w => exact h.1
    | metaGet w => exact hc.elim
    | lock w n => exact hc.elim
    | unlock w => exact hc.elim
    | writeFacts w f => exact hc.elim
    | _ => exact h
  | pct op call => exact h
  | compose text => exact h
  | up => exact h

theorem eq_of_idle {c : Cmd} {r : c.Answer} (hc : c.Idle) (h : DeskAct vmid p s c r s') :
    s' = s := by
  cases c with
  | readFacts w => exact hc.elim
  | metaGet w => exact hc.elim
  | lock w n => exact hc.elim
  | unlock w => exact hc.elim
  | writeFacts w f => exact hc.elim
  | _ => exact h

/-- An attempt on another guest keeps what every change by others keeps. -/
theorem attends_elsewhere {digest : Text} (hv : v ≠ vmid) :
    Attends (deskWorld vmid (Harmless x)) v digest (Agrees x vmid memo) (fun _ => True) where
  half := by
    rintro s c r s' hc hs ⟨s₁, ho, h⟩
    exact eq_of_half hc h ▸ hs.others ho
  keeps _ _ _ _ := trivial
  named _ _ _ := trivial
  written := by
    rintro s f r s' - hs ⟨s₁, ho, h⟩
    rcases h with ⟨hv', -⟩ | ⟨rfl, -⟩
    · exact absurd hv' hv
    · exact ⟨hs.others ho, fun _ => trivial⟩

/-- An attempt on the guest: the loop has its lock, for the document it read. -/
theorem attends_here {text : Text} :
    Attends (deskWorld vmid (Harmless x)) vmid (x.digest text)
      (fun s => s.holder = some .loop ∧ s.tried = some text) (·.Named (x.digest text)) where
  half := by
    rintro s c r s' hc ⟨hheld, htried⟩ ⟨s₁, ho, h⟩
    obtain rfl := eq_of_half hc h
    obtain ⟨hheld', htried', -⟩ := others_of_loop ho hheld
    exact ⟨hheld', htried'.trans htried⟩
  keeps := by
    rintro s c r s' hc ⟨hheld, -⟩ hn ⟨s₁, ho, h⟩
    obtain rfl := eq_of_half hc h
    obtain ⟨-, -, hfacts⟩ := others_of_loop ho hheld
    rw [Desk.Named, hfacts]
    exact hn
  named := by
    rintro s a s' ⟨hheld, -⟩ ⟨s₁, ho, rfl, hanswer⟩ hn
    rw [Desk.Named, ← hanswer rfl a rfl]
    exact hn
  written := by
    rintro s f r s' hd ⟨hheld, htried⟩ ⟨s₁, ho, h⟩
    obtain ⟨hheld', htried', -⟩ := others_of_loop ho hheld
    rcases h with ⟨-, rfl⟩ | ⟨rfl, hfail⟩
    · exact ⟨⟨hheld', htried'.trans htried⟩, fun _ => decide_eq_true hd⟩
    · exact ⟨⟨hheld', htried'.trans htried⟩, fun hr => absurd hr (hfail rfl ())⟩

/-- **An attempt on the guest (proved)**: when it ends well, the memo that is set agrees. -/
theorem wp_attempt_here {out : Output} {read : Read} (hd : Decoded x vmid out read)
    (hreading : s.reading = some read.text) :
    wp (deskWorld vmid (Harmless x)) (fun _ _ => True) (attempt x ctx vmid read).run
      (Ends (fun _ => Agrees x vmid (Assoc.set vmid read.digest memo)) fun _ _ => True) s := by
  have hattends : Attends (deskWorld vmid (Harmless x)) vmid read.digest
      (fun s => s.holder = some .loop ∧ s.tried = some read.text) (·.Named read.digest) :=
    hd.digest ▸ attends_here
  refine hattends.attempt hd ?_ ?_
  · -- what the loop takes the lock for is what it read
    rintro s' ⟨s₁, ho, hlock⟩
    dsimp only [DeskAct] at hlock
    rw [if_pos rfl] at hlock
    rcases hlock with ⟨-, -, rfl⟩ | ⟨hfail, -⟩
    · exact ⟨rfl, (reading_of_others ho).trans hreading⟩
    · exact absurd rfl (hfail ())
  · rintro s s' hs hn ⟨s₁, ho, hunlock⟩
    dsimp only [DeskAct] at hunlock
    rw [if_pos rfl] at hunlock
    subst hunlock
    obtain ⟨-, htried, hfacts⟩ := others_of_loop ho hs.1
    refine ⟨nofun, fun d hget => ?_, fun t doc _ htried' hparse hauto => ?_⟩
    · rw [Assoc.get?_set, if_pos rfl, Option.some.injEq] at hget
      exact ⟨read.text, htried.trans hs.2, hd.digest.symm.trans hget⟩
    · obtain rfl : read.text = t := Option.some.inj (hs.2.symm.trans (htried.symm.trans htried'))
      obtain rfl : read.doc = doc := Except.ok.inj (hd.doc.symm.trans hparse)
      have hnamed := hn hauto
      rw [hd.digest, Desk.Named, ← hfacts] at hnamed
      exact hnamed

/-- An attempt on another guest. -/
theorem wp_attempt_elsewhere {out : Output} {read : Read} (hd : Decoded x v out read)
    (hv : v ≠ vmid) (hs : Agrees x vmid memo s) :
    wp (deskWorld vmid (Harmless x)) (fun _ _ => True) (attempt x ctx v read).run
      (Ends (fun _ => Agrees x vmid memo) fun _ _ => True) s := by
  have hattends : Attends (deskWorld vmid (Harmless x)) v read.digest (Agrees x vmid memo)
      (fun _ => True) := attends_elsewhere hv
  refine hattends.attempt hd ?_ ?_
  · rintro s' ⟨s₁, ho, hlock⟩
    dsimp only [DeskAct] at hlock
    rw [if_neg hv] at hlock
    exact hlock ▸ hs.others ho
  · rintro s s' hs' - ⟨s₁, ho, hunlock⟩
    dsimp only [DeskAct] at hunlock
    rw [if_neg hv] at hunlock
    exact hunlock ▸ hs'.others ho

theorem Agrees.idle {c : Cmd} {r : c.Answer} (h : Agrees x vmid memo s) (hc : c.Idle)
    (hr : (deskWorld vmid (Harmless x)).reply s c r s') : Agrees x vmid memo s' := by
  obtain ⟨s₁, ho, ha⟩ := hr
  exact eq_of_idle hc ha ▸ h.others ho

/-- A document that is read, of this guest or another. -/
theorem Agrees.read {r : Result Output} (h : Agrees x vmid memo s)
    (hr : (deskWorld vmid (Harmless x)).reply s (.metaGet v) r s') : Agrees x vmid memo s' := by
  obtain ⟨s₁, ho, ha⟩ := hr
  have hs₁ := h.others ho
  dsimp only [DeskAct] at ha
  split_ifs at ha with _ hp
  · rw [ha.1]
    exact ⟨hs₁.free, hs₁.memo, hs₁.named⟩
  · exact absurd rfl hp
  · exact ha ▸ hs₁

/-- **The step lemma for a visit (proved).** -/
theorem Agrees.visit {g : Listed} (h : Agrees x vmid memo s)
    (hrun : Run (deskWorld vmid (Harmless x)) s (visit x ctx memo g) tr memo' s')
    (hfails : NoneFails x ctx tr) : Agrees x vmid memo' s' := by
  cases visiting_of_run hrun hfails with
  | skipped _ => exact h
  | passed _ hreply _ hend =>
    rcases hend with rfl | ⟨msg, hsaid⟩
    · exact h.read hreply
    · exact (h.read hreply).idle (c := .report msg) trivial hsaid
  | @attempted out read s₁ s₂ s₃ part hreply hout _ hatt hdog =>
    refine Agrees.idle ?_ (c := .notify _) trivial hdog
    have hd := decoded_of_readOutput hout
    have h₁ := h.read hreply
    by_cases hv : g.vmid = vmid
    · rw [hv] at hreply hatt hd ⊢
      obtain ⟨s₀, -, hget⟩ := hreply
      dsimp only [DeskAct] at hget
      rw [if_pos rfl, if_pos rfl] at hget
      have hreading : s₁.reading = some read.text := by
        rw [hget.1, hd.text]
        exact (hget.2 out rfl).1 hd.status
      exact wp_run (Q := Ends (fun _ => Agrees x vmid _) fun _ _ => True)
        (wp_attempt_here hd hreading) hatt
    · have h₂ := wp_run (wp_attempt_elsewhere hd hv h₁) hatt
      refine ⟨h₂.free, fun d hget => h₂.memo d ?_, h₂.named⟩
      rw [Assoc.get?_set, if_neg (Ne.symm hv)] at hget
      exact hget

/-! ### Every run -/

/-- Runs of the loop between two visits, with what others do: no attempt fails, and the memo may be
dropped. -/
inductive Passes (x : External) (vmid : ℕ) (C : Restraint) : Memo → Desk → Prop where
  | start {s : Desk} : s.holder ≠ some .loop → s.tried = none → Passes x vmid C [] s
  | other {memo : Memo} {s s' : Desk} : Passes x vmid C memo s → Other C s s' →
      Passes x vmid C memo s'
  | forget {memo : Memo} {s : Desk} : Passes x vmid C memo s → Passes x vmid C [] s
  | visit {ctx : Ctx} {memo memo' : Memo} {g : Listed} {tr : List (Event sig)} {s s' : Desk} :
      Passes x vmid C memo s → Run (deskWorld vmid C) s (visit x ctx memo g) tr memo' s' →
      NoneFails x ctx tr → Passes x vmid C memo' s'

theorem Passes.others (h : Passes x vmid C memo s) (ho : Relation.ReflTransGen (Other C) s s') :
    Passes x vmid C memo s' := by
  induction ho with
  | refl => exact h
  | tail _ ho ih => exact ih.other ho

/-- **A turn of the loop continues such a run (proved).** -/
theorem passes_turn {l : LoopCtx} {st st' : LoopState} (h : Passes x vmid C st.memo s)
    (hrun : Run (deskWorld vmid C) s (iteration x l st) tr st' s')
    (hfails : NoneFails x (l.ctx st'.config) tr) : Passes x vmid C st'.memo s' := by
  refine turn_keeps (H := Passes x vmid C) ?_ .forget (fun hs hv hn => .visit hs hv hn) h hrun hfails
  rintro m s c r s' hc hs ⟨s₁, ho, ha⟩
  exact eq_of_idle hc ha ▸ hs.others ho

/-- **The run lemma (proved).** -/
theorem agrees_of_passes (h : Passes x vmid (Harmless x) memo s) : Agrees x vmid memo s := by
  induction h with
  | start hfree htried => exact ⟨hfree, nofun, fun t doc _ ht => absurd (htried.symm.trans ht) nofun⟩
  | other _ ho ih => exact ih.other ho
  | forget _ ih => exact ⟨ih.free, nofun, ih.named⟩
  | visit _ hrun hfails ih => exact ih.visit hrun hfails

/-- **The memo is only a shortcut (proved)**: in every run in which no attempt of the loop fails and no
change by others is harmful, a guest that is skipped because its document's digest is remembered
has facts that name this very document, if its docker policy is `auto`. -/
theorem skip_is_applied {a : Result Output} {read : Read} (hx : Function.Injective x.digest)
    (h : Passes x vmid (Harmless x) memo s)
    (hreply : (deskWorld vmid (Harmless x)).reply s (.metaGet vmid) a s')
    (hread : (a >>= readOutput x vmid) = .ok (some read)) (hauto : read.doc.policy.docker = .auto)
    (hskip : Assoc.get? vmid memo = some read.digest) :
    s'.doc = some read.text ∧ s'.Named read.digest := by
  obtain ⟨out, rfl, hout⟩ := bind_eq_ok.mp hread
  have hd := decoded_of_readOutput hout
  have hs' := (agrees_of_passes h).read hreply
  have hdoc : s'.doc = some read.text := by
    obtain ⟨s₁, -, hget⟩ := hreply
    dsimp only [DeskAct] at hget
    rw [if_pos rfl, if_pos rfl] at hget
    rw [hget.1, hd.text]
    exact (hget.2 out rfl).1 hd.status
  refine ⟨hdoc, ?_⟩
  -- the digest that is remembered is that of the document attempted last
  obtain ⟨t, htried, hdigest⟩ := hs'.memo _ hskip
  obtain rfl : t = read.text := hx (hdigest.trans hd.digest)
  rw [hd.digest]
  exact hs'.named _ _ hdoc htried hd.doc hauto

end

/-! ### A document that comes back -/

/-- A guest on which every command succeeds. -/
def deskAnswer (p : Party) (s : Desk) : (c : Cmd) → c.Answer × Desk
  | .version => (.ok none, s)
  | .loadConfig => (.notFound, s)
  | .now => (0, s)
  | .wallClock => ("2026-01-01T00:00:00+00:00".toList, s)
  | .sleep _ | .notify _ | .report _ => ((), s)
  | .list _ => (.ok [⟨105, true, [], false⟩], s)
  | .metaGet v =>
    if v = 105 then (.ok (storeOutput s.doc), if p = .loop then s.read else s)
    else (.ok (storeOutput none), s)
  | .lock v _ =>
    if v = 105 then
      if s.holder = none then (.ok (), s.taken p) else (bail "busy", s)
    else (.ok (), s)
  | .unlock v => ((), if v = 105 then s.released else s)
  | .dockerInstall _ | .pull _ | .up _ | .pct _ _ _ | .writeCompose _ _ => (.ok (), s)
  | .status _ _ => (.ok .running, s)
  | .config _ _ => (.ok (some webConf), s)
  | .dockerInfo _ => (.ok 0, s)
  | .exec _ _ => (.ok ⟨0, [], []⟩, s)
  | .ps _ => (.ok [], s)
  | .readCompose _ => (.ok none, s)
  | .readFacts v => (.ok (if v = 105 then s.facts else none), s)
  | .writeFacts v facts => (.ok (), if v = 105 then s.recorded facts else s)

theorem deskAnswer_act (p : Party) (s : Desk) (c : Cmd) :
    DeskAct 105 p s c (deskAnswer p s c).1 (deskAnswer p s c).2 := by
  cases c with
  | metaGet v =>
    by_cases hv : v = 105
    · subst hv
      refine ⟨rfl, fun out hout => ?_⟩
      obtain rfl : storeOutput s.doc = out := Except.ok.inj hout
      cases s.doc <;> simp [storeOutput]
    · dsimp only [DeskAct, deskAnswer]
      rw [if_neg hv, if_neg hv]
  | lock v w =>
    by_cases hv : v = 105
    · subst hv
      by_cases hs : s.holder = none
      · dsimp only [DeskAct, deskAnswer]
        rw [if_pos rfl, if_pos rfl, if_pos hs]
        exact .inl ⟨rfl, hs, rfl⟩
      · dsimp only [DeskAct, deskAnswer]
        rw [if_pos rfl, if_pos rfl, if_neg hs]
        exact .inr ⟨fun _ => bail_ne_ok, rfl⟩
    · dsimp only [DeskAct, deskAnswer]
      rw [if_neg hv, if_neg hv]
  | writeFacts v f =>
    by_cases hv : v = 105
    · exact .inl ⟨hv, if_pos hv⟩
    · exact .inr ⟨if_neg hv, fun hv' => absurd hv' hv⟩
  | readFacts v =>
    refine ⟨rfl, ?_⟩
    rintro hv _ ⟨⟩
    exact if_pos hv
  | _ => rfl

theorem deskAnswer_reply {C : Restraint} (s : Desk) (c : Cmd) :
    (deskWorld 105 C).reply s c (deskAnswer .loop s c).1 (deskAnswer .loop s c).2 :=
  ⟨s, .refl, deskAnswer_act .loop s c⟩

def deskFresh : Desk where
  doc := some (webText "nginx")
  facts := none
  holder := none
  reading := none
  tried := none

/-- The loop has visited the guest. -/
def deskTried : Memo × Desk :=
  (visit webExternal webCtx [] webListed).interpret (deskAnswer .loop) deskFresh

def deskTrace : List (Event sig) :=
  (visit webExternal webCtx [] webListed).trace (deskAnswer .loop) deskFresh

theorem deskTried_run {C : Restraint} : Run (deskWorld 105 C) deskFresh
    (visit webExternal webCtx [] webListed) deskTrace deskTried.1 deskTried.2 :=
  run_trace deskAnswer_reply _ _

theorem deskTried_passes {C : Restraint} : Passes webExternal 105 C deskTried.1 deskTried.2 :=
  .visit (.start (by decide) rfl) deskTried_run (noneFails_of_noneFailing (by decide +kernel))

/-- The document is replaced, and the new one applied by hand. -/
def deskReplaced : Desk := (Change.write (some (webText "caddy"))).on deskTried.2

def deskApplied : Result Unit × Desk :=
  (dockerApply webExternal webCtx 105 handOptions).run.interpret (deskAnswer (.hand 0)) deskReplaced

/-- The first document is written back. -/
def deskReverted : Desk := (Change.write (some (webText "nginx"))).on deskApplied.2

theorem deskApplied_run : ∃ tr, Run (handWorld 105 0) deskReplaced
    (dockerApply webExternal webCtx 105 handOptions).run tr deskApplied.1 deskApplied.2 :=
  run_interpret (W := handWorld 105 0) (fun s c => ⟨s, id, deskAnswer_act (.hand 0) s c⟩) _ _

/-- The session of the verb, as changes by others. -/
def handFacts : Facts :=
  { digest := webExternal.digest (webText "caddy"), template := none
    appliedAt := "2026-01-01T00:00:00+00:00", version := "0.0.7" }

def webRead : Read where
  vmid := 105
  text := webText "nginx"
  digest := webExternal.digest (webText "nginx")
  doc := webDoc "nginx"

theorem webRead_read : (.ok (storeOutput (some (webText "nginx"))) >>= readOutput webExternal 105)
    = .ok (some webRead) := by
  have hstatus : (storeOutput (some (webText "nginx"))).status = 0 := rfl
  have hparse : parse webExternal.docFromYaml (storeOutput (some (webText "nginx"))).stdout
      = .ok (webDoc "nginx") := web_parse_nginx
  exact bind_eq_ok.mpr ⟨_, rfl, readOutput_ok hstatus hparse⟩

/-- What is checked of the run. -/
def deskChecked : Bool :=
  decide (deskApplied.1.isOk ∧ deskApplied.2 = (Change.release 0).on ((Change.record 0 handFacts).on
      ((Change.take 0).on deskReplaced)) ∧
    deskReplaced.holder = none ∧ Assoc.get? 105 deskTried.1 = some webRead.digest ∧
      handFacts.digest ≠ webRead.digest)

theorem desk_checked : deskChecked = true := by decide +kernel

theorem deskReverted_passes :
    Passes webExternal 105 (fun _ _ => True) deskTried.1 deskReverted := by
  obtain ⟨-, happlied, hfree, -, -⟩ := of_decide_eq_true desk_checked
  have hreplaced : Passes webExternal 105 (fun _ _ => True) deskTried.1 deskReplaced :=
    .other deskTried_passes ⟨.write _, trivial, trivial, rfl⟩
  have htaken := Passes.other hreplaced ⟨.take 0, hfree, trivial, rfl⟩
  have hrecorded := Passes.other htaken ⟨.record 0 handFacts, rfl, trivial, rfl⟩
  have hreleased := Passes.other hrecorded ⟨.release 0, rfl, trivial, rfl⟩
  rw [← happlied] at hreleased
  exact .other hreleased ⟨.write _, trivial, trivial, rfl⟩

/-- The store answers the loop with the document that is there. -/
theorem read_reply {C : Restraint} {vmid : ℕ} {s : Desk} {text : Text} (h : s.doc = some text) :
    (deskWorld vmid C).reply s (.metaGet vmid) (.ok (storeOutput (some text))) s.read := by
  refine ⟨s, .refl, ?_⟩
  dsimp only [DeskAct]
  rw [if_pos rfl, if_pos rfl]
  refine ⟨rfl, fun out hout => ?_⟩
  obtain rfl := Except.ok.inj hout
  exact ⟨fun _ => h, nofun⟩

/-- **The memo is not only a shortcut.**  The loop has applied the first document; the second one is
written, and applied by hand; the first one is written back.  Nothing failed, and the loop skips
the guest, whose facts name the second document. -/
theorem skip_is_not_applied :
    Passes webExternal 105 (fun _ _ => True) deskTried.1 deskReverted ∧
      (∃ tr, Run (handWorld 105 0) deskReplaced (dockerApply webExternal webCtx 105 handOptions).run tr
        (.ok ()) deskApplied.2) ∧
      (deskWorld 105 fun _ _ => True).reply deskReverted (.metaGet 105)
        (.ok (storeOutput (some (webText "nginx")))) deskReverted.read ∧
      (.ok (storeOutput (some (webText "nginx"))) >>= readOutput webExternal 105) = .ok (some webRead) ∧
      (webRead.doc.policy.pct = .auto ∧ webRead.doc.policy.docker = .auto) ∧
      Assoc.get? 105 deskTried.1 = some webRead.digest ∧
      ¬ deskReverted.read.Named webRead.digest := by
  obtain ⟨hok, happlied, -, hmemo, hne⟩ := of_decide_eq_true desk_checked
  have hrun := deskApplied_run
  have hresult : deskApplied.1 = .ok () := by
    cases hr : deskApplied.1 with
    | ok u => rfl
    | error e =>
      rw [hr] at hok
      exact absurd hok nofun
  rw [hresult] at hrun
  have hdoc : deskReverted.doc = some (webText "nginx") := Change.write_doc _ _
  have hfacts : deskReverted.facts = some handFacts := by
    rw [deskReverted, Change.write_facts, happlied, Change.release_facts, Change.record_facts]
  refine ⟨deskReverted_passes, hrun, read_reply hdoc, webRead_read, ⟨rfl, rfl⟩, hmemo, fun h => ?_⟩
  rw [Desk.Named, Desk.read_facts, hfacts, Option.any_some, decide_eq_true_iff] at h
  exact hne h

/-- A guest that is skipped right after it was applied. -/
theorem skip_is_applied_web :
    deskTried.2.read.Named webRead.digest := by
  obtain ⟨-, -, -, hmemo, -⟩ := of_decide_eq_true desk_checked
  have hdoc : deskTried.2.doc = some (webText "nginx") := by decide +kernel
  exact (skip_is_applied webDigest_injective deskTried_passes (read_reply hdoc) webRead_read rfl
    hmemo).2

end PveCompose
