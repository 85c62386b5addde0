import PveCompose.Lib.Monitor

/-!
# What the commands of a program cost

Each command has a cost.  A program costs at most so much, however its commands are answered; and a meter
that some commands reset says what is spent between two of them.

* `Costs` — a bound on every run, with a rule for each way programs are put together;
* `meter` — the monitor that adds up what is spent since it was reset, up to a limit;
* `wp_of_costs` — **PROVED**: a program within what is left of the limit is no violation;
* `spent_of_meter` — **PROVED**: an accepted stretch without a reset costs no more than the limit.
-/

namespace Programs

variable {S : Sig} {α β ε : Type}

/-- What the commands of a trace cost. -/
def spent (w : S.Cmd → ℕ) (tr : List (Event S)) : ℕ := (tr.map fun e => w e.1).sum

@[simp] theorem spent_cons {w : S.Cmd → ℕ} {e : Event S} {tr : List (Event S)} :
    spent w (e :: tr) = w e.1 + spent w tr := List.sum_cons

/-- However they are answered, the commands of the program cost `n` at most. -/
def Costs (w : S.Cmd → ℕ) : Prog S α → ℕ → Prop
  | .ret _, _ => True
  | .call c k, n => w c ≤ n ∧ ∀ r, Costs w (k r) (n - w c)

section

variable {w : S.Cmd → ℕ} {n m : ℕ}

theorem costs_mono {p : Prog S α} (h : Costs w p n) (hn : n ≤ m) : Costs w p m := by
  induction p generalizing n m with
  | ret a => trivial
  | call c k ih => exact ⟨h.1.trans hn, fun r => ih r (h.2 r) (Nat.sub_le_sub_right hn _)⟩

/-- **A sequence costs what its parts cost.** -/
theorem costs_bindProg {p : Prog S α} {f : α → Prog S β} (h : Costs w p n)
    (hf : ∀ a, Costs w (f a) m) : Costs w (Prog.bind p f) (n + m) := by
  induction p generalizing n with
  | ret a => exact costs_mono (hf a) (Nat.le_add_left _ _)
  | call c k ih =>
    refine ⟨h.1.trans (Nat.le_add_right _ _), fun r => ?_⟩
    rw [Nat.sub_add_comm h.1]
    exact ih r (h.2 r)

/-- What the first part leaves is for the rest; an error ends both. -/
theorem costs_bind {p : Fallible S ε α} {f : α → Fallible S ε β} (h : Costs w p.run m) (hm : m ≤ n)
    (hf : ∀ a, Costs w (f a).run (n - m)) : Costs w (p >>= f).run n := by
  rw [← Nat.add_sub_cancel' hm]
  refine costs_bindProg h fun r => ?_
  cases r with
  | ok a => exact hf a
  | error e => trivial

theorem costs_pure (a : α) : Costs w (pure a : Fallible S ε α).run n := trivial

theorem costs_ofExcept (r : Except ε α) : Costs w (Fallible.ofExcept r : Fallible S ε α).run n := trivial

theorem costs_issue {c : S.Cmd} (h : w c ≤ n) (f : S.Ans c → Except ε α) :
    Costs w (Fallible.issue c f : Fallible S ε α).run n := ⟨h, fun _ => trivial⟩

theorem costs_attempt {p : Fallible S ε α} (h : Costs w p.run n) : Costs w p.attempt.run n :=
  costs_bindProg (m := 0) h fun _ => trivial

/-- Commands that cost nothing. -/
theorem costs_only {p : Prog S α} (h : Only (fun c => w c = 0) p) : Costs w p n := by
  induction p with
  | ret a => trivial
  | call c k ih =>
    have hzero : w c = 0 := h.1
    refine ⟨hzero ▸ Nat.zero_le n, fun r => ?_⟩
    rw [hzero]
    exact ih r (h.2 r)

end

/-! ### The meter -/

/-- What is spent since the last reset, up to the limit.  What costs nothing is always allowed. -/
def meter (w : S.Cmd → ℕ) (reset : S.Cmd → Bool) (limit : ℕ) : Monitor S ℕ where
  step q c _ := if reset c then some 0 else if w c = 0 ∨ q + w c ≤ limit then some (q + w c) else none

section

variable {w : S.Cmd → ℕ} {reset : S.Cmd → Bool} {limit q q' : ℕ}

theorem meter_step (reset : S.Cmd → Bool) {c : S.Cmd} (r : S.Ans c) (h : q + w c ≤ limit) :
    ∃ q' ≤ q + w c, (meter w reset limit).step q c r = some q' := by
  cases hc : reset c with
  | true => exact ⟨0, Nat.zero_le _, if_pos hc⟩
  | false => exact ⟨q + w c, le_rfl, (if_neg (by rw [hc]; decide)).trans (if_pos (.inr h))⟩

theorem meter_allows {c : S.Cmd} (h : q + w c ≤ limit) : (meter w reset limit).Allows q c := fun r => by
  obtain ⟨q', -, hq'⟩ := meter_step reset r h
  exact Option.isSome_iff_exists.mpr ⟨q', hq'⟩

theorem meter_reply {c : S.Cmd} {r : S.Ans c} (h : q + w c ≤ limit)
    (hr : (meter w reset limit).world.reply q c r q') : q' ≤ q + w c := by
  obtain ⟨q₁, hle, hq₁⟩ := meter_step reset r h
  obtain rfl : q₁ = q' := Option.some.inj (hq₁.symm.trans hr)
  exact hle

theorem wp_ask_meter {c : S.Cmd} {Q : S.Ans c → ℕ → Prop} (h : q + w c ≤ limit)
    (hQ : ∀ r, ∀ q' ≤ q + w c, Q r q') :
    wp (meter w reset limit).world (meter w reset limit).Allows (Prog.ask c) Q q :=
  ⟨meter_allows h, fun r q' hr => hQ r q' (meter_reply h hr)⟩

theorem wp_ask_free {c : S.Cmd} {Q : S.Ans c → ℕ → Prop} (hc : w c = 0) (hq : q ≤ limit)
    (hQ : ∀ r, ∀ q' ≤ q, Q r q') :
    wp (meter w reset limit).world (meter w reset limit).Allows (Prog.ask c) Q q := by
  refine wp_ask_meter (by omega) fun r q' hq' => hQ r q' ?_
  rwa [hc] at hq'

/-- **A program within the limit (proved).** -/
theorem wp_of_costs {p : Prog S α} {n : ℕ} (h : Costs w p n) (hq : q + n ≤ limit) :
    wp (meter w reset limit).world (meter w reset limit).Allows p (fun _ q' => q' ≤ q + n) q := by
  induction p generalizing q n with
  | ret a => exact Nat.le_add_right q n
  | call c k ih =>
    obtain ⟨hc, hrest⟩ := h
    have hnow : q + w c ≤ limit := by omega
    refine ⟨meter_allows hnow, fun r q₁ hr => ?_⟩
    have hq₁ := meter_reply hnow hr
    refine wp_mono (ih r (hrest r) (by omega)) fun _ q' hq' => ?_
    omega

/-- **What is spent without a reset (proved).** -/
theorem spent_of_meter {tr : List (Event S)} (h : (meter w reset limit).run q tr = some q')
    (hquiet : ∀ e ∈ tr, reset e.1 = false) : q' = q + spent w tr ∧ (spent w tr = 0 ∨ q' ≤ limit) := by
  induction tr generalizing q with
  | nil =>
    cases h
    exact ⟨rfl, .inl rfl⟩
  | cons e tr ih =>
    obtain ⟨q₁, hq₁, hrest⟩ := Option.bind_eq_some_iff.mp h
    have hloud : ¬ reset e.1 = true := by
      rw [hquiet e List.mem_cons_self]
      decide
    have hstep : (if w e.1 = 0 ∨ q + w e.1 ≤ limit then some (q + w e.1) else none) = some q₁ :=
      (if_neg hloud).symm.trans hq₁
    obtain ⟨hle, hq₁⟩ := Option.ite_none_right_eq_some.mp hstep
    obtain rfl := Option.some.inj hq₁
    obtain ⟨rfl, hlimit⟩ := ih hrest fun e' he' => hquiet e' (List.mem_cons_of_mem _ he')
    rw [spent_cons]
    exact ⟨by omega, by omega⟩

theorem spent_le_of_meter {tr : List (Event S)} (h : (meter w reset limit).run q tr = some q')
    (hquiet : ∀ e ∈ tr, reset e.1 = false) : spent w tr ≤ limit := by
  obtain ⟨rfl, hzero | hlimit⟩ := spent_of_meter h hquiet
  · exact hzero ▸ Nat.zero_le limit
  · omega

end

end Programs
