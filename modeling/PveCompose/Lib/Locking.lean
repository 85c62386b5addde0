import PveCompose.Lib.Embed
import PveCompose.Lib.Monitor
import PveCompose.Lib.Threads

/-!
# Parties that take locks

Several parties run programs over one table of locks, a command at a time and in any order.  A lock is
granted only while nobody has it, and may always be refused; who is killed has nothing any more.

* `Role`, `Locking` — what a command is to the locks, and which answers grant one;
* `Tidy` — a program that takes a lock only when it has none, uses only what it has, and has none at
  its end; `tidy_bind`, `tidy_section` — **PROVED**: how such programs are put together;
* `Locking.Sound` — between two steps each party has at most one lock, and what is left of its program
  is tidy from there; `sound_turn`, `sound_turns` — **PROVED**: the step and the run lemma;
* `Sound.uses`, `Sound.one`, `Sound.idle`, `Sound.worker` — what is read off it;
* `Sound.progress` — **PROVED**: while somebody is not done, somebody gets on without being refused;
* `Sound.freed` — **PROVED**: a lock that is held is free after finitely many commands of its holder,
  however they are answered.
-/

namespace Programs

/-- What a command is to the locks. -/
inductive Role (κ : Type) where
  | take : κ → Role κ
  | give : κ → Role κ
  | use : κ → Role κ
  | free : Role κ
deriving DecidableEq

structure Locking (S : Sig) (κ : Type) where
  role : S.Cmd → Role κ
  /-- Whether the answer grants the lock that was asked for. -/
  got : (c : S.Cmd) → S.Ans c → Bool

variable {S : Sig} {κ ι α β ε : Type} [DecidableEq κ]

namespace Locking

variable (L : Locking S κ)

/-- What a party has, after a command. -/
def step (q : Option κ) (c : S.Cmd) (r : S.Ans c) : Option (Option κ) :=
  match L.role c with
  | .take k => if q = none then some (if L.got c r then some k else none) else none
  | .give k => if q = some k then some none else none
  | .use k => if q = some k then some q else none
  | .free => some q

def monitor : Monitor S (Option κ) := ⟨L.step⟩

/-- From having `q` on, the program keeps to its locks, and ends with what `Q` says. -/
abbrev Keeps (p : Prog S α) (Q : α → Option κ → Prop) (q : Option κ) : Prop :=
  wp L.monitor.world L.monitor.Allows p Q q

/-- One lock at a time, and none at the end. -/
def Tidy (p : Prog S α) : Prop := L.Keeps p (fun _ q => q = none) none

/-- The command may be issued while `k` is had. -/
def Within (k : κ) (c : S.Cmd) : Prop := L.role c = .free ∨ L.role c = .use k

variable {L} {k : κ} {c : S.Cmd}

theorem step_free (h : L.role c = .free) (q : Option κ) (r : S.Ans c) : L.step q c r = some q := by
  unfold step
  rw [h]

theorem step_take (h : L.role c = .take k) (r : S.Ans c) :
    L.step none c r = some (if L.got c r then some k else none) := by
  unfold step
  rw [h]
  exact if_pos rfl

theorem step_give (h : L.role c = .give k) (r : S.Ans c) : L.step (some k) c r = some none := by
  unfold step
  rw [h]
  exact if_pos rfl

theorem step_use (h : L.role c = .use k) (r : S.Ans c) : L.step (some k) c r = some (some k) := by
  unfold step
  rw [h]
  exact if_pos rfl

theorem step_within (h : L.Within k c) (r : S.Ans c) : L.step (some k) c r = some (some k) :=
  h.elim (fun h => step_free h _ r) fun h => step_use h r

/-- What a party has where its command is no violation. -/
theorem had_of_step {q : Option κ} {r : S.Ans c} (h : (L.step q c r).isSome) :
    match L.role c with
    | .take _ => q = none
    | .give k | .use k => q = some k
    | .free => True := by
  unfold step at h
  cases hc : L.role c with
  | free => trivial
  | _ =>
    rw [hc] at h
    by_contra hq
    dsimp only at h hq
    rw [if_neg hq] at h
    cases h

/-! ### Tidy programs -/

theorem keeps_within {p : Prog S α} (h : Only (L.Within k) p) :
    L.Keeps p (fun _ q => q = some k) (some k) := by
  refine wp_only (P := fun q => q = some k) h ?_ ?_ rfl
  · rintro q c r q' hc rfl hr
    exact (Option.some.inj ((step_within hc r).symm.trans hr)).symm
  · rintro q c hc rfl r
    exact Option.isSome_iff_exists.mpr ⟨_, step_within hc r⟩

theorem tidy_free {p : Prog S α} (h : Only (fun c => L.role c = .free) p) : L.Tidy p := by
  refine wp_only (P := fun q => q = none) h ?_ ?_ rfl
  · rintro q c r q' hc rfl hr
    exact (Option.some.inj ((step_free hc none r).symm.trans hr)).symm
  · rintro q c hc rfl r
    exact Option.isSome_iff_exists.mpr ⟨_, step_free hc none r⟩

theorem tidy_pure (a : α) : L.Tidy (pure a : Prog S α) := rfl

theorem tidy_call {p : S.Ans c → Prog S α} (hc : L.role c = .free) (hp : ∀ r, L.Tidy (p r)) :
    L.Tidy (.call c p) := by
  refine ⟨fun r => Option.isSome_iff_exists.mpr ⟨_, step_free hc none r⟩, fun r q hq => ?_⟩
  obtain rfl := Option.some.inj ((step_free hc none r).symm.trans hq)
  exact hp r

theorem tidy_ask (hc : L.role c = .free) : L.Tidy (Prog.ask c) := tidy_call hc fun _ => rfl

theorem tidy_bindProg {p : Prog S α} {f : α → Prog S β} (hp : L.Tidy p) (hf : ∀ a, L.Tidy (f a)) :
    L.Tidy (Prog.bind p f) := by
  unfold Tidy Keeps
  rw [wp_bindProg]
  refine wp_mono hp fun a q hq => ?_
  subst hq
  exact hf a

theorem tidy_bind {p : Fallible S ε α} {f : α → Fallible S ε β} (hp : L.Tidy p.run)
    (hf : ∀ a, L.Tidy (f a).run) : L.Tidy (p >>= f).run := by
  refine tidy_bindProg hp fun r => ?_
  cases r with
  | ok a => exact hf a
  | error e => exact rfl

/-- **A section (proved)**: where the lock is granted, the body goes on with it, and gives it back. -/
theorem tidy_section {p : S.Ans c → Prog S α} (hc : L.role c = .take k)
    (hgot : ∀ r, L.got c r = true → L.Keeps (p r) (fun _ q => q = none) (some k))
    (hnot : ∀ r, L.got c r = false → L.Tidy (p r)) : L.Tidy (.call c p) := by
  refine ⟨fun r => Option.isSome_iff_exists.mpr ⟨_, step_take hc r⟩, fun r q hq => ?_⟩
  obtain rfl := Option.some.inj ((step_take hc r).symm.trans hq)
  cases hr : L.got c r with
  | true => exact hgot r hr
  | false => exact hnot r hr

/-- The end of a section. -/
theorem keeps_give {p : S.Ans c → Prog S α} (hc : L.role c = .give k) (hp : ∀ r, L.Tidy (p r)) :
    L.Keeps (.call c p) (fun _ q => q = none) (some k) := by
  refine ⟨fun r => Option.isSome_iff_exists.mpr ⟨_, step_give hc r⟩, fun r q hq => ?_⟩
  obtain rfl := Option.some.inj ((step_give hc r).symm.trans hq)
  exact hp r

/-- Spelled in a larger signature, a program keeps to its locks as it did. -/
theorem keeps_embed {T : Sig} {L' : Locking T κ} {e : Embedding S T}
    (hrole : ∀ c, L'.role (e.cmd c) = L.role c) (hgot : ∀ c r, L'.got (e.cmd c) r = L.got c (e.answer c r))
    {p : Prog S α} {Q : α → Option κ → Prop} {q : Option κ} (h : L.Keeps p Q q) :
    L'.Keeps (p.embed e) Q q := by
  have hstep : ∀ q c r, L'.step q (e.cmd c) r = L.step q c (e.answer c r) := fun q c r => by
    unfold step
    rw [hrole, hgot]
  induction p generalizing q with
  | ret a => exact h
  | call c k ih =>
    refine ⟨fun r => ?_, fun r q' hq' => ih _ (h.2 _ q' ((hstep q c r).symm.trans hq'))⟩
    show (L'.step q (e.cmd c) r).isSome
    rw [hstep]
    exact h.1 _

end Locking

/-! ### The table -/

/-- Who has a lock. -/
abbrev Holders (κ ι : Type) := κ → Option ι

/-- What is left of the table when `i` is no more. -/
def Holders.without [DecidableEq ι] (t : Holders κ ι) (i : ι) : Holders κ ι :=
  fun k => if t k = some i then none else t k

namespace Locking

section

variable (L : Locking S κ) [DecidableEq ι]

/-- What a party's command does to the table. -/
def Does (i : ι) (t : Holders κ ι) (c : S.Cmd) (r : S.Ans c) (t' : Holders κ ι) : Prop :=
  match L.role c with
  | .take k => L.got c r = true ∧ t k = none ∧ t' = Function.update t k (some i) ∨
      L.got c r = false ∧ t' = t
  | .give k => t' = if t k = some i then Function.update t k none else t
  | .use _ | .free => t' = t

/-- One step: a party's command is answered, a party begins, or is killed. -/
inductive Turn (starts : ι → Prog S Unit → Prop) :
    Crew S (Holders κ ι) ι → Crew S (Holders κ ι) ι → Prop where
  | act {w : Crew S (Holders κ ι) ι} {i : ι} {c : S.Cmd} {k : S.Ans c → Prog S Unit} {r : S.Ans c}
      {t' : Holders κ ι} : w.progs i = .call c k → L.Does i w.state c r t' →
      Turn starts w ⟨t', Function.update w.progs i (k r)⟩
  | start {w : Crew S (Holders κ ι) ι} {i : ι} {p : Prog S Unit} : w.progs i = .ret () →
      starts i p → Turn starts w ⟨w.state, Function.update w.progs i p⟩
  | kill {w : Crew S (Holders κ ι) ι} {i : ι} :
      Turn starts w ⟨w.state.without i, Function.update w.progs i (.ret ())⟩

abbrev Turns (starts : ι → Prog S Unit → Prop) :
    Crew S (Holders κ ι) ι → Crew S (Holders κ ι) ι → Prop :=
  Relation.ReflTransGen (L.Turn starts)

end

variable {L : Locking S κ}

/-- The party has `q`, and nothing else. -/
def Has (t : Holders κ ι) (i : ι) (q : Option κ) : Prop := ∀ k, t k = some i ↔ q = some k

/-- Between two steps. -/
def Sound (L : Locking S κ) (w : Crew S (Holders κ ι) ι) : Prop :=
  ∀ i, ∃ q, Has w.state i q ∧ L.Keeps (w.progs i) (fun _ q => q = none) q

theorem sound_idle : L.Sound (.idle fun _ => none : Crew S (Holders κ ι) ι) :=
  fun _ => ⟨none, fun _ => ⟨nofun, nofun⟩, rfl⟩

section Turns

variable [DecidableEq ι] {i j : ι} {q : Option κ} {k : κ} {c : S.Cmd} {r : S.Ans c} {t t' : Holders κ ι}
  {w w' : Crew S (Holders κ ι) ι} {starts : ι → Prog S Unit → Prop}

/-- A command that keeps to the locks: what the party has goes along, and the others have what they
had. -/
theorem has_of_does (hq : Has t i q) (hallowed : (L.step q c r).isSome) (h : L.Does i t c r t') :
    ∃ q', L.step q c r = some q' ∧ Has t' i q' ∧ ∀ j ≠ i, ∀ q₂, Has t j q₂ → Has t' j q₂ := by
  have hhad := had_of_step hallowed
  unfold Does at h
  cases hc : L.role c with
  | take k =>
    rw [hc] at h hhad
    obtain rfl : q = none := hhad
    rw [step_take hc]
    rcases h with ⟨hgot, hfree, rfl⟩ | ⟨hgot, rfl⟩
    · refine ⟨some k, by rw [hgot]; rfl, fun k' => ?_, fun j hj q₂ hq₂ k' => ?_⟩
      · by_cases hk : k' = k
        · subst hk
          rw [Function.update_self]
          exact ⟨fun _ => rfl, fun _ => rfl⟩
        · rw [Function.update_of_ne hk, hq k']
          exact ⟨nofun, fun h => absurd (Option.some.inj h).symm hk⟩
      · by_cases hk : k' = k
        · subst hk
          rw [Function.update_self, ← hq₂ k', hfree]
          exact ⟨fun h => absurd (Option.some.inj h).symm hj, nofun⟩
        · rw [Function.update_of_ne hk]
          exact hq₂ k'
    · exact ⟨none, by rw [hgot]; rfl, hq, fun _ _ _ h => h⟩
  | give k =>
    rw [hc] at h hhad
    obtain rfl : q = some k := hhad
    rw [step_give hc]
    dsimp only at h
    rw [if_pos ((hq k).mpr rfl)] at h
    subst h
    refine ⟨none, rfl, fun k' => ?_, fun j hj q₂ hq₂ k' => ?_⟩
    · by_cases hk : k' = k
      · subst hk
        rw [Function.update_self]
        exact ⟨nofun, nofun⟩
      · rw [Function.update_of_ne hk, hq k']
        exact ⟨fun h => absurd (Option.some.inj h).symm hk, nofun⟩
    · by_cases hk : k' = k
      · subst hk
        rw [Function.update_self, ← hq₂ k', (hq k').mpr rfl]
        exact ⟨nofun, fun h => absurd (Option.some.inj h).symm hj⟩
      · rw [Function.update_of_ne hk]
        exact hq₂ k'
  | use k =>
    rw [hc] at h hhad
    obtain rfl : q = some k := hhad
    exact ⟨some k, step_use hc r, h ▸ hq, fun _ _ _ h' => h ▸ h'⟩
  | free =>
    rw [hc] at h
    exact ⟨q, step_free hc q r, h ▸ hq, fun _ _ _ h' => h ▸ h'⟩

omit [DecidableEq κ] in
theorem has_without (h : Has t i q) (hj : i ≠ j) : Has (t.without j) i q := by
  intro k
  rw [← h k]
  unfold Holders.without
  split_ifs with hk
  · rw [hk]
    exact ⟨nofun, fun h => absurd (Option.some.inj h).symm hj⟩
  · rfl

/-- **The step lemma (proved).** -/
theorem sound_turn (hstarts : ∀ i p, starts i p → L.Tidy p) (hw : L.Sound w) (h : L.Turn starts w w') :
    L.Sound w' := by
  cases h with
  | @act i c k r t' hp hdoes =>
    obtain ⟨q, hq, hkeeps⟩ := hw i
    rw [hp] at hkeeps
    obtain ⟨q', hstep, hq', hothers⟩ := has_of_does hq (hkeeps.1 r) hdoes
    intro j
    by_cases hj : j = i
    · subst hj
      refine ⟨q', hq', ?_⟩
      show L.Keeps (Function.update w.progs j (k r) j) _ q'
      rw [Function.update_self]
      exact hkeeps.2 r q' hstep
    · obtain ⟨q₂, hq₂, hkeeps₂⟩ := hw j
      refine ⟨q₂, hothers j hj q₂ hq₂, ?_⟩
      show L.Keeps (Function.update w.progs i (k r) j) _ q₂
      rw [Function.update_of_ne hj]
      exact hkeeps₂
  | @start i p hp hstart =>
    intro j
    by_cases hj : j = i
    · subst hj
      obtain ⟨q, hq, hkeeps⟩ := hw j
      rw [hp] at hkeeps
      obtain rfl : q = none := hkeeps
      refine ⟨none, hq, ?_⟩
      show L.Keeps (Function.update w.progs j p j) _ none
      rw [Function.update_self]
      exact hstarts j p hstart
    · obtain ⟨q, hq, hkeeps⟩ := hw j
      refine ⟨q, hq, ?_⟩
      show L.Keeps (Function.update w.progs i p j) _ q
      rw [Function.update_of_ne hj]
      exact hkeeps
  | @kill i =>
    intro j
    by_cases hj : j = i
    · subst hj
      refine ⟨none, fun k => ?_, ?_⟩
      · show w.state.without j k = some j ↔ _
        unfold Holders.without
        split_ifs with hk
        · exact ⟨nofun, nofun⟩
        · exact ⟨fun h => absurd h hk, nofun⟩
      · show L.Keeps (Function.update w.progs j (.ret ()) j) _ none
        rw [Function.update_self]
        exact rfl
    · obtain ⟨q, hq, hkeeps⟩ := hw j
      refine ⟨q, has_without hq hj, ?_⟩
      show L.Keeps (Function.update w.progs i (.ret ()) j) _ q
      rw [Function.update_of_ne hj]
      exact hkeeps

/-- **The run lemma (proved).** -/
theorem sound_turns (hstarts : ∀ i p, starts i p → L.Tidy p) (hw : L.Sound w)
    (h : L.Turns starts w w') : L.Sound w' := by
  induction h with
  | refl => exact hw
  | tail _ hstep ih => exact sound_turn hstarts ih hstep

end Turns

/-! ### What is read off it -/

namespace Sound

variable {i j : ι} {k : κ} {c : S.Cmd} {w : Crew S (Holders κ ι) ι} {rest : S.Ans c → Prog S Unit}

/-- Nobody has two. -/
theorem one {k' : κ} (hw : L.Sound w) (h : w.state k = some i) (h' : w.state k' = some i) : k = k' := by
  obtain ⟨q, hq, -⟩ := hw i
  exact Option.some.inj (((hq k).mp h).symm.trans ((hq k').mp h'))

/-- Who is done has none. -/
theorem idle (hw : L.Sound w) (hp : w.progs i = .ret ()) (k : κ) : w.state k ≠ some i := by
  obtain ⟨q, hq, hkeeps⟩ := hw i
  rw [hp] at hkeeps
  obtain rfl : q = none := hkeeps
  exact fun h => nomatch (hq k).mp h

/-- What is used is had. -/
theorem uses [Inhabited (S.Ans c)] (hw : L.Sound w) (hp : w.progs i = .call c rest)
    (hc : L.role c = .use k) : w.state k = some i := by
  obtain ⟨q, hq, hkeeps⟩ := hw i
  rw [hp] at hkeeps
  have hhad := had_of_step (hkeeps.1 default)
  rw [hc] at hhad
  exact (hq k).mpr hhad

/-- Who asks for a lock has none. -/
theorem asks [Inhabited (S.Ans c)] (hw : L.Sound w) (hp : w.progs i = .call c rest)
    (hc : L.role c = .take k) (k' : κ) : w.state k' ≠ some i := by
  obtain ⟨q, hq, hkeeps⟩ := hw i
  rw [hp] at hkeeps
  have hhad := had_of_step (hkeeps.1 default)
  rw [hc] at hhad
  obtain rfl : q = none := hhad
  exact fun h => nomatch (hq k').mp h

/-- **Who is waited for is at work (proved).** -/
theorem worker [∀ c, Inhabited (S.Ans c)] (hw : L.Sound w) (hp : w.progs i = .call c rest)
    (hc : L.role c = .take k) (hj : w.state k = some j) :
    j ≠ i ∧ ∃ c' rest', w.progs j = .call c' rest' ∧ ∀ k', L.role c' ≠ .take k' := by
  refine ⟨fun h => hw.asks hp hc k (h ▸ hj), ?_⟩
  cases hp' : w.progs j with
  | ret u => exact absurd hj (hw.idle hp' k)
  | call c' rest' => exact ⟨c', rest', rfl, fun k' hc' => hw.asks hp' hc' k hj⟩

end Sound

/-! ### Nobody waits for good -/

section Progress

variable [DecidableEq ι] {i j : ι} {k : κ} {c : S.Cmd} {t : Holders κ ι} {w : Crew S (Holders κ ι) ι}

theorem does_of_not_take (hc : ∀ k, L.role c ≠ .take k) (i : ι) (t : Holders κ ι) (r : S.Ans c) :
    ∃ t', L.Does i t c r t' := by
  unfold Does
  cases h : L.role c with
  | take k => exact absurd h (hc k)
  | _ => exact ⟨_, rfl⟩

variable (L) in
/-- Somebody may have a command answered, and is refused no lock by it. -/
def GetsOn (w : Crew S (Holders κ ι) ι) : Prop :=
  ∃ (j : ι) (c : S.Cmd) (rest : S.Ans c → Prog S Unit) (r : S.Ans c) (t' : Holders κ ι),
    w.progs j = .call c rest ∧ L.Does j w.state c r t' ∧ ∀ k, L.role c = .take k → L.got c r = true

theorem getsOn_of_not_take [Inhabited (S.Ans c)] {rest : S.Ans c → Prog S Unit}
    (hp : w.progs j = .call c rest) (hc : ∀ k, L.role c ≠ .take k) : L.GetsOn w := by
  obtain ⟨t', ht'⟩ := does_of_not_take hc j w.state default
  exact ⟨j, c, rest, default, t', hp, ht', fun k hk => absurd hk (hc k)⟩

/-- **Somebody gets on (proved).** -/
theorem Sound.progress [∀ c, Inhabited (S.Ans c)]
    (hgrants : ∀ c k, L.role c = .take k → ∃ r, L.got c r = true) (hw : L.Sound w)
    (hi : w.progs i ≠ .ret ()) : L.GetsOn w := by
  cases hp : w.progs i with
  | ret u => exact absurd hp hi
  | call c rest =>
    by_cases hc : ∃ k, L.role c = .take k
    · obtain ⟨k, hk⟩ := hc
      cases hj : w.state k with
      | some j =>
        obtain ⟨-, c', rest', hp', hc'⟩ := hw.worker hp hk hj
        exact getsOn_of_not_take hp' hc'
      | none =>
        obtain ⟨r, hr⟩ := hgrants c k hk
        refine ⟨i, c, rest, r, Function.update w.state k (some i), hp, ?_, fun _ _ => hr⟩
        unfold Does
        rw [hk]
        exact .inl ⟨hr, hj, rfl⟩
    · exact getsOn_of_not_take hp fun k hk => hc ⟨k, hk⟩

variable (L) in
/-- However the commands of `j` are answered, after finitely many of them `P` holds; none of them asks
for a lock. -/
inductive Soon (j : ι) (P : Holders κ ι → Prop) : Crew S (Holders κ ι) ι → Prop where
  | now {w : Crew S (Holders κ ι) ι} : P w.state → Soon j P w
  | next {w : Crew S (Holders κ ι) ι} {c : S.Cmd} {rest : S.Ans c → Prog S Unit} :
      w.progs j = .call c rest → (∀ k, L.role c ≠ .take k) →
      (∀ r t', L.Does j w.state c r t' → Soon j P ⟨t', Function.update w.progs j (rest r)⟩) →
      Soon j P w

/-- **What is held is given back (proved).** -/
theorem Sound.freed [∀ c, Inhabited (S.Ans c)] (hw : L.Sound w) (hj : w.state k = some j) :
    L.Soon j (fun t => t k = none) w := by
  generalize hp : w.progs j = p
  induction p generalizing w with
  | ret u => exact absurd hj (hw.idle hp k)
  | call c rest ih =>
    have hc : ∀ k', L.role c ≠ .take k' := fun k' hc => hw.asks hp hc k hj
    refine .next hp hc fun r t' hdoes => ?_
    have hturn : L.Turn (fun _ _ => False) w ⟨t', Function.update w.progs j (rest r)⟩ := .act hp hdoes
    have hsound := sound_turn (fun _ _ h => h.elim) hw hturn
    by_cases ht' : t' k = none
    · exact .now ht'
    -- the lock stays with its holder
    refine ih r hsound ?_ (Function.update_self _ _ _)
    show t' k = some j
    unfold Does at hdoes
    cases hrole : L.role c with
    | take k' => exact absurd hrole (hc k')
    | give k' =>
      rw [hrole] at hdoes
      dsimp only at hdoes
      subst hdoes
      split_ifs at ht' ⊢ with hk'
      · obtain rfl := hw.one hk' hj
        exact absurd (Function.update_self _ _ _) ht'
      · exact hj
    | use k' =>
      rw [hrole] at hdoes
      exact hdoes ▸ hj
    | free =>
      rw [hrole] at hdoes
      exact hdoes ▸ hj

end Progress

end Locking

end Programs
