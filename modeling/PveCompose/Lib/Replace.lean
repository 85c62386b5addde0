import Mathlib

/-!
# Replacing words: all at once, or one after another

A rule replaces a word by a text. `once` scans a text from the left and replaces at each place the
word that stands there; `oneByOne` takes the rules in turn, each over what the ones before it wrote.
The words here begin with a mark that stands nowhere else in them (`Marked`), and no replacement
holds a mark, so that a text is what stands before its first mark and the pieces after each one.

* `once_withMarks` — a scan goes piece by piece: a piece that begins like a word loses its mark and
  joins the text before it;
* `marks_oneByOne_le` — **PROVED**: the rules in turn never leave more marks than all at once;
* `oneByOne_eq_once_iff` — **PROVED**: the two agree exactly when no word is formed by the text that
  earlier rules wrote (`Forms`);
* `once_perm` — at once, the order of the rules does not matter.

Everything is over an arbitrary alphabet.
-/

namespace Replacing

variable {α : Type*} [DecidableEq α]

structure Rule (α : Type*) where
  word : List α
  new : List α

/-- The rule whose word stands at the start of a text. -/
def standing (rules : List (Rule α)) (s : List α) : Option (Rule α) :=
  rules.find? fun r => r.word.isPrefixOf s

/-- The scan; the counter skips what is left of a replaced word. -/
def onceFrom (rules : List (Rule α)) : ℕ → List α → List α
  | _, [] => []
  | k + 1, _ :: s => onceFrom rules k s
  | 0, c :: s =>
    match standing rules (c :: s) with
    | some r => r.new ++ onceFrom rules (r.word.length - 1) s
    | none => c :: onceFrom rules 0 s

/-- Every word replaced, all in one scan. -/
def once (rules : List (Rule α)) (s : List α) : List α := onceFrom rules 0 s

/-- One rule after another, each over what the ones before it wrote. -/
def oneByOne (rules : List (Rule α)) (s : List α) : List α :=
  rules.foldl (fun out r => once [r] out) s

/-- The word of `r` comes to stand where it did not, when the rules `done` have been run on the text
that follows. -/
def Forms (done : List (Rule α)) (r : Rule α) (s : List α) : Prop :=
  ∃ before c after, s = before ++ c :: after ∧ r.word <+: c :: once done after ∧
    ¬ r.word <+: c :: after

/-- No word begins with another. -/
def Apart (rules : List (Rule α)) : Prop :=
  rules.Pairwise fun r r' => ¬ r.word <+: r'.word ∧ ¬ r'.word <+: r.word

/-- The word begins with the mark and holds no other; the replacement holds none. -/
structure Marked (m : α) (r : Rule α) : Prop where
  word : ∃ body, r.word = m :: body ∧ m ∉ body
  new : m ∉ r.new

/-! ### The rule that stands at a place -/

theorem standing_eq_some {rules : List (Rule α)} {s : List α} {r : Rule α}
    (h : standing rules s = some r) : r ∈ rules ∧ r.word <+: s :=
  ⟨List.mem_of_find?_eq_some h, List.isPrefixOf_iff_prefix.mp
    (List.find?_some (p := fun r : Rule α => r.word.isPrefixOf s) h)⟩

theorem standing_eq_none {rules : List (Rule α)} {s : List α} :
    standing rules s = none ↔ ∀ r ∈ rules, ¬ r.word <+: s := by
  unfold standing
  rw [List.find?_eq_none]
  exact forall₂_congr fun r _ => not_congr List.isPrefixOf_iff_prefix

theorem standing_append (done later : List (Rule α)) (s : List α) :
    standing (done ++ later) s = (standing done s).or (standing later s) :=
  List.find?_append

theorem standing_congr {rules : List (Rule α)} {s t : List α}
    (h : ∀ r ∈ rules, (r.word <+: s ↔ r.word <+: t)) : standing rules s = standing rules t := by
  unfold standing
  refine List.find?_congr fun r hr => ?_
  rw [Bool.eq_iff_iff, List.isPrefixOf_iff_prefix, List.isPrefixOf_iff_prefix]
  exact h r hr

/-! ### A scan skips, and goes through text without marks -/

theorem onceFrom_eq_drop (rules : List (Rule α)) (k : ℕ) (s : List α) :
    onceFrom rules k s = once rules (s.drop k) := by
  induction k generalizing s with
  | zero => rfl
  | succ k ih =>
    cases s with
    | nil => rfl
    | cons c s => exact ih s

theorem once_cons_some {rules : List (Rule α)} {c : α} {s : List α} {r : Rule α}
    (h : standing rules (c :: s) = some r) :
    once rules (c :: s) = r.new ++ once rules (s.drop (r.word.length - 1)) := by
  rw [once, onceFrom, h]
  exact congrArg _ (onceFrom_eq_drop rules _ s)

theorem once_cons_none {rules : List (Rule α)} {c : α} {s : List α}
    (h : standing rules (c :: s) = none) : once rules (c :: s) = c :: once rules s := by
  rw [once, onceFrom, h]
  rfl

theorem once_nil (s : List α) : once ([] : List (Rule α)) s = s := by
  induction s with
  | nil => rfl
  | cons c s ih => rw [once_cons_none rfl, ih]

/-- A text in which no word stands is left as it is. -/
theorem once_of_absent {rules : List (Rule α)} {s : List α} (h : ∀ r ∈ rules, ¬ r.word <:+: s) :
    once rules s = s := by
  induction s with
  | nil => rfl
  | cons c s ih =>
    have hstand : standing rules (c :: s) = none :=
      standing_eq_none.mpr fun r hr hpre => h r hr hpre.isInfix
    rw [once_cons_none hstand, ih fun r hr hin => h r hr (hin.trans (List.suffix_cons c s).isInfix)]

section Pieces

variable {m : α} {rules : List (Rule α)}

theorem standing_none_of_ne (hmarked : ∀ r ∈ rules, Marked m r) {c : α} (hc : c ≠ m) (s : List α) :
    standing rules (c :: s) = none := by
  refine standing_eq_none.mpr fun r hr hpre => ?_
  obtain ⟨body, hword, -⟩ := (hmarked r hr).word
  rw [hword] at hpre
  exact hc (List.cons_prefix_cons.mp hpre).1.symm

theorem once_append_free (hmarked : ∀ r ∈ rules, Marked m r) {h : List α} (hfree : m ∉ h)
    (s : List α) : once rules (h ++ s) = h ++ once rules s := by
  induction h with
  | nil => rfl
  | cons c h ih =>
    rw [List.mem_cons, not_or] at hfree
    rw [List.cons_append, once_cons_none (standing_none_of_ne hmarked (Ne.symm hfree.1) _),
      ih hfree.2]
    rfl

/-! ### Texts as pieces -/

/-- The pieces, each after its mark. -/
def withMarks (m : α) (ps : List (List α)) : List α := ps.flatMap (m :: ·)

theorem exists_withMarks (m : α) (s : List α) :
    ∃ h ps, s = h ++ withMarks m ps ∧ m ∉ h ∧ ∀ p ∈ ps, m ∉ p := by
  induction s with
  | nil => exact ⟨[], [], rfl, List.not_mem_nil, fun _ hp => absurd hp List.not_mem_nil⟩
  | cons c s ih =>
    obtain ⟨h, ps, rfl, hh, hps⟩ := ih
    by_cases hc : c = m
    · subst hc
      exact ⟨[], h :: ps, rfl, List.not_mem_nil, List.forall_mem_cons.mpr ⟨hh, hps⟩⟩
    · refine ⟨c :: h, ps, rfl, ?_, hps⟩
      rw [List.mem_cons, not_or]
      exact ⟨Ne.symm hc, hh⟩

omit [DecidableEq α] in
/-- A word's body is seen in the piece alone. -/
theorem body_of_append {body p t : List α} (hbody : m ∉ body) (ht : t = [] ∨ t.head? = some m) :
    body <+: p ++ t ↔ body <+: p := by
  refine ⟨fun h => ?_, fun h => h.trans (List.prefix_append _ _)⟩
  rcases List.prefix_or_prefix_of_prefix h (List.prefix_append p t) with h' | ⟨k, rfl⟩
  · exact h'
  · rw [List.prefix_append_right_inj] at h
    cases k with
    | nil => exact List.prefix_refl _ |>.trans (by simp)
    | cons c k =>
      obtain ⟨u, rfl⟩ := h
      rcases ht with ht | ht
      · cases ht
      · obtain rfl : c = m := Option.some.inj ht
        exact absurd (by simp) hbody

omit [DecidableEq α] in
theorem withMarks_head (ps : List (List α)) : withMarks m ps = [] ∨ (withMarks m ps).head? = some m := by
  cases ps with
  | nil => exact .inl rfl
  | cons p ps => exact .inr rfl

omit [DecidableEq α] in
theorem word_of_append {r : Rule α} (hr : Marked m r) {p t : List α}
    (ht : t = [] ∨ t.head? = some m) : r.word <+: m :: (p ++ t) ↔ r.word <+: m :: p := by
  obtain ⟨body, hword, hbody⟩ := hr.word
  rw [hword, List.cons_prefix_cons, List.cons_prefix_cons, body_of_append hbody ht]

/-- The piece after a mark, replaced together with the mark. -/
def swap (m : α) (rules : List (Rule α)) (p : List α) : Option (List α) :=
  (standing rules (m :: p)).map fun r => r.new ++ p.drop (r.word.length - 1)

/-- The text before the first mark left, and the pieces left: a replaced piece has lost its mark and
joins the text before it. -/
def closeUp : List (List α × Option (List α)) → List α × List (List α)
  | [] => ([], [])
  | (_, some x) :: ds => (x ++ (closeUp ds).1, (closeUp ds).2)
  | (p, none) :: ds => ([], (p ++ (closeUp ds).1) :: (closeUp ds).2)

omit [DecidableEq α] in
theorem closeUp_some (p x : List α) (ds : List (List α × Option (List α))) :
    closeUp ((p, some x) :: ds) = (x ++ (closeUp ds).1, (closeUp ds).2) := rfl

omit [DecidableEq α] in
theorem closeUp_none (p : List α) (ds : List (List α × Option (List α))) :
    closeUp ((p, none) :: ds) = ([], (p ++ (closeUp ds).1) :: (closeUp ds).2) := rfl

omit [DecidableEq α] in
theorem withMarks_cons (p : List α) (ps : List (List α)) :
    withMarks m (p :: ps) = m :: (p ++ withMarks m ps) := rfl

omit [DecidableEq α] in
theorem withMarks_append (ps qs : List (List α)) :
    withMarks m (ps ++ qs) = withMarks m ps ++ withMarks m qs := List.flatMap_append

def closed (m : α) (rules : List (Rule α)) (ps : List (List α)) : List α × List (List α) :=
  closeUp (ps.map fun p => (p, swap m rules p))

theorem closed_cons_some {p x : List α} (ps : List (List α)) (h : swap m rules p = some x) :
    closed m rules (p :: ps) = (x ++ (closed m rules ps).1, (closed m rules ps).2) := by
  rw [closed, List.map_cons, h, closeUp_some]
  rfl

theorem closed_cons_none {p : List α} (ps : List (List α)) (h : swap m rules p = none) :
    closed m rules (p :: ps) = ([], (p ++ (closed m rules ps).1) :: (closed m rules ps).2) := by
  rw [closed, List.map_cons, h, closeUp_none]
  rfl

theorem swap_eq_none {p : List α} : swap m rules p = none ↔ standing rules (m :: p) = none :=
  Option.map_eq_none_iff

/-- **A scan goes piece by piece.** -/
theorem once_withMarks (hmarked : ∀ r ∈ rules, Marked m r) {ps : List (List α)}
    (hfree : ∀ p ∈ ps, m ∉ p) :
    once rules (withMarks m ps) = (closed m rules ps).1 ++ withMarks m (closed m rules ps).2 := by
  induction ps with
  | nil => rfl
  | cons p ps ih =>
    obtain ⟨hp, hps⟩ := List.forall_mem_cons.mp hfree
    have hstand : standing rules (m :: (p ++ withMarks m ps)) = standing rules (m :: p) :=
      standing_congr fun r hr => word_of_append (hmarked r hr) (withMarks_head ps)
    cases hs : standing rules (m :: p) with
    | none =>
      rw [closed_cons_none ps (swap_eq_none.mpr hs), withMarks_cons,
        once_cons_none (hstand.trans hs), once_append_free hmarked hp, ih hps, withMarks_cons,
        List.nil_append, List.append_assoc]
    | some r =>
      have hswap : swap m rules p = some (r.new ++ p.drop (r.word.length - 1)) := by
        rw [swap, hs]
        rfl
      -- the word ends within the piece
      have hlen : r.word.length - 1 ≤ p.length := by
        have := (standing_eq_some hs).2.length_le
        rw [List.length_cons] at this
        omega
      have hdrop : m ∉ p.drop (r.word.length - 1) := fun h => hp (List.mem_of_mem_drop h)
      rw [closed_cons_some ps hswap, withMarks_cons, once_cons_some (hstand.trans hs),
        List.drop_append_of_le_length hlen, once_append_free hmarked hdrop, ih hps]
      simp only [List.append_assoc]

theorem once_pieces (hmarked : ∀ r ∈ rules, Marked m r) {h : List α} (hh : m ∉ h)
    {ps : List (List α)} (hfree : ∀ p ∈ ps, m ∉ p) :
    once rules (h ++ withMarks m ps)
      = (h ++ (closed m rules ps).1) ++ withMarks m (closed m rules ps).2 := by
  rw [once_append_free hmarked hh, once_withMarks hmarked hfree, List.append_assoc]

/-! ### The marks left -/

omit [DecidableEq α] in
theorem closeUp_free {ds : List (List α × Option (List α))} (hp : ∀ d ∈ ds, m ∉ d.1)
    (hx : ∀ d ∈ ds, ∀ x ∈ d.2, m ∉ x) : m ∉ (closeUp ds).1 ∧ ∀ q ∈ (closeUp ds).2, m ∉ q := by
  induction ds with
  | nil => exact ⟨List.not_mem_nil, fun _ h => absurd h List.not_mem_nil⟩
  | cons d ds ih =>
    obtain ⟨hpd, hpds⟩ := List.forall_mem_cons.mp hp
    obtain ⟨hxd, hxds⟩ := List.forall_mem_cons.mp hx
    obtain ⟨ha, hq⟩ := ih hpds hxds
    obtain ⟨p, _ | x⟩ := d
    · refine ⟨List.not_mem_nil, List.forall_mem_cons.mpr ⟨?_, hq⟩⟩
      exact List.not_mem_append hpd ha
    · exact ⟨List.not_mem_append (hxd x rfl) ha, hq⟩

theorem swap_free (hmarked : ∀ r ∈ rules, Marked m r) {p x : List α} (hp : m ∉ p)
    (h : swap m rules p = some x) : m ∉ x := by
  obtain ⟨r, hr, rfl⟩ := Option.map_eq_some_iff.mp h
  exact List.not_mem_append (hmarked r (standing_eq_some hr).1).new
    fun h => hp (List.mem_of_mem_drop h)

theorem closed_free (hmarked : ∀ r ∈ rules, Marked m r) {ps : List (List α)}
    (hfree : ∀ p ∈ ps, m ∉ p) :
    m ∉ (closed m rules ps).1 ∧ ∀ q ∈ (closed m rules ps).2, m ∉ q := by
  refine closeUp_free (fun d hd => ?_) fun d hd x hx => ?_
  · obtain ⟨p, hp, rfl⟩ := List.mem_map.mp hd
    exact hfree p hp
  · obtain ⟨p, hp, rfl⟩ := List.mem_map.mp hd
    exact swap_free hmarked (hfree p hp) hx

theorem count_withMarks {h : List α} (hh : m ∉ h) {ps : List (List α)} (hfree : ∀ p ∈ ps, m ∉ p) :
    (h ++ withMarks m ps).count m = ps.length := by
  rw [List.count_append, List.count_eq_zero.mpr hh, Nat.zero_add]
  induction ps with
  | nil => rfl
  | cons p ps ih =>
    obtain ⟨hp, hps⟩ := List.forall_mem_cons.mp hfree
    rw [withMarks_cons, List.count_cons_self, List.count_append, List.count_eq_zero.mpr hp, Nat.zero_add, ih hps,
      List.length_cons]

omit [DecidableEq α] in
theorem length_closeUp (ds : List (List α × Option (List α))) :
    (closeUp ds).2.length = ds.countP fun d => d.2.isNone := by
  induction ds with
  | nil => rfl
  | cons d ds ih =>
    obtain ⟨p, _ | x⟩ := d
    · show (closeUp ds).2.length + 1 = _
      rw [ih, List.countP_cons_of_pos rfl]
    · show (closeUp ds).2.length = _
      rw [ih, List.countP_cons_of_neg Bool.false_ne_true]

/-- The pieces that begin like no word: the marks a scan leaves. -/
def bare (m : α) (rules : List (Rule α)) (ps : List (List α)) : ℕ :=
  ps.countP fun p => (swap m rules p).isNone

theorem count_once (hmarked : ∀ r ∈ rules, Marked m r) {h : List α} (hh : m ∉ h)
    {ps : List (List α)} (hfree : ∀ p ∈ ps, m ∉ p) :
    (once rules (h ++ withMarks m ps)).count m = bare m rules ps := by
  obtain ⟨ha, hq⟩ := closed_free hmarked hfree
  rw [once_pieces hmarked hh hfree, count_withMarks (List.not_mem_append hh ha) hq, closed,
    length_closeUp, List.countP_map]
  rfl

end Pieces

/-! ### Words formed -/

section Formed

variable {m : α} {done later : List (Rule α)}

/-- The pieces that begin like no word, and like one of the later rules once the earlier rules have
been run on what follows. -/
def formed (m : α) (done later : List (Rule α)) : List (List α) → ℕ
  | [] => 0
  | p :: ps =>
    (if swap m (done ++ later) p = none ∧ swap m later (p ++ (closed m done ps).1) ≠ none then 1
      else 0) + formed m done later ps

theorem swap_append (m : α) (done later : List (Rule α)) (p : List α) :
    swap m (done ++ later) p = (swap m done p).or (swap m later p) := by
  rw [swap, standing_append, Option.map_or]
  rfl

theorem swap_extends {p : List α} (a : List α) (h : swap m later p ≠ none) :
    swap m later (p ++ a) ≠ none := by
  rw [Ne, swap_eq_none, standing_eq_none] at h ⊢
  refine fun hnone => h fun r hr hpre => hnone r hr ?_
  exact hpre.trans (List.prefix_append (m :: p) a)

/-- **Every word formed is a mark fewer**: the later rules leave of the earlier ones' text the marks
that all would have left, less the words formed. -/
theorem bare_add_formed (m : α) (done later : List (Rule α)) (ps : List (List α)) :
    bare m later (closed m done ps).2 + formed m done later ps = bare m (done ++ later) ps := by
  induction ps with
  | nil => rfl
  | cons p ps ih =>
    have hbare : bare m (done ++ later) (p :: ps)
        = bare m (done ++ later) ps + if (swap m (done ++ later) p).isNone then 1 else 0 :=
      List.countP_cons
    rw [hbare, formed, ← ih, swap_append]
    cases hd : swap m done p with
    | some x =>
      have hone : ¬ ((some x).or (swap m later p) = none ∧
          swap m later (p ++ (closed m done ps).1) ≠ none) := fun h => by cases h.1
      rw [closed_cons_some ps hd, if_neg hone]
      show bare m later (closed m done ps).2 + (0 + _) = _ + 0
      omega
    | none =>
      have hleft : bare m later (closed m done (p :: ps)).2 = bare m later (closed m done ps).2
          + if (swap m later (p ++ (closed m done ps).1)).isNone then 1 else 0 := by
        rw [closed_cons_none ps hd]
        exact List.countP_cons
      rw [hleft, Option.none_or]
      cases hl : swap m later p with
      | some y =>
        have hq : swap m later (p ++ (closed m done ps).1) ≠ none :=
          swap_extends _ fun h => by rw [hl] at h; cases h
        have hsome : ¬ (swap m later (p ++ (closed m done ps).1)).isNone = true :=
          fun h => hq (Option.isNone_iff_eq_none.mp h)
        rw [if_neg hsome, if_neg fun h => by cases h.1]
        show _ + 0 + (0 + _) = _ + 0
        omega
      | none =>
        show _ = _ + 1
        by_cases hq : swap m later (p ++ (closed m done ps).1) = none
        · rw [if_pos (Option.isNone_iff_eq_none.mpr hq), if_neg fun h => h.2 hq]
          omega
        · rw [if_neg (fun h => hq (Option.isNone_iff_eq_none.mp h)), if_pos ⟨rfl, hq⟩]
          omega

/-- One more rule, when it forms no word: run on its own at the end, it is run with the others. -/
theorem closed_concat {r : Rule α} {ps : List (List α)} (h : formed m done [r] ps = 0) :
    closed m (done ++ [r]) ps = ((closed m done ps).1 ++ (closed m [r] (closed m done ps).2).1,
      (closed m [r] (closed m done ps).2).2) := by
  induction ps with
  | nil => rfl
  | cons p ps ih =>
    rw [formed, Nat.add_eq_zero_iff] at h
    obtain ⟨hp, hps⟩ := h
    have hnew := ih hps
    have hnone : swap m (done ++ [r]) p = none → swap m [r] (p ++ (closed m done ps).1) = none := by
      intro hs
      by_contra hq
      rw [if_pos ⟨hs, hq⟩] at hp
      exact absurd hp one_ne_zero
    have happend := swap_append m done [r] p
    cases hd : swap m done p with
    | some x =>
      rw [hd, Option.some_or] at happend
      rw [closed_cons_some ps happend, closed_cons_some ps hd, hnew, List.append_assoc]
    | none =>
      rw [hd, Option.none_or] at happend
      rw [closed_cons_none ps hd]
      cases hl : swap m [r] p with
      | some y =>
        rw [hl] at happend
        have hq : swap m [r] (p ++ (closed m done ps).1) = some (y ++ (closed m done ps).1) := by
          obtain ⟨r', hr', rfl⟩ := Option.map_eq_some_iff.mp hl
          obtain ⟨hmem, hpre⟩ := standing_eq_some hr'
          obtain rfl : r' = r := List.mem_singleton.mp hmem
          have hlen : r'.word.length - 1 ≤ p.length := by
            have := hpre.length_le
            rw [List.length_cons] at this
            omega
          have hstand : standing [r'] (m :: (p ++ (closed m done ps).1)) = some r' := by
            refine List.find?_cons_of_pos ?_
            exact List.isPrefixOf_iff_prefix.mpr (hpre.trans (List.prefix_append (m :: p) _))
          rw [swap, hstand, Option.map_some, List.drop_append_of_le_length hlen, List.append_assoc]
        rw [closed_cons_some ps happend, closed_cons_some _ hq, hnew]
        simp only [List.nil_append, List.append_assoc]
      | none =>
        rw [hl] at happend
        rw [closed_cons_none ps happend, closed_cons_none _ (hnone happend), hnew]
        simp only [List.nil_append, List.append_assoc]

end Formed

/-! ### One after another, and at once -/

section Turns

variable {m : α}

theorem oneByOne_cons (r : Rule α) (rules : List (Rule α)) (s : List α) :
    oneByOne (r :: rules) s = oneByOne rules (once [r] s) := rfl

theorem oneByOne_concat (rules : List (Rule α)) (r : Rule α) (s : List α) :
    oneByOne (rules ++ [r]) s = once [r] (oneByOne rules s) := by
  rw [oneByOne, List.foldl_concat]
  rfl

theorem oneByOne_append (done later : List (Rule α)) (s : List α) :
    oneByOne (done ++ later) s = oneByOne later (oneByOne done s) := List.foldl_append

/-- **In turn never leaves more marks than at once (proved).** -/
theorem marks_oneByOne_le {rules : List (Rule α)} (hmarked : ∀ r ∈ rules, Marked m r) (s : List α) :
    (oneByOne rules s).count m ≤ (once rules s).count m := by
  induction rules generalizing s with
  | nil => rw [once_nil]; rfl
  | cons r rules ih =>
    obtain ⟨hr, hrules⟩ := List.forall_mem_cons.mp hmarked
    have hone : ∀ r' ∈ [r], Marked m r' := List.forall_mem_singleton.mpr hr
    obtain ⟨h, ps, rfl, hh, hps⟩ := exists_withMarks m s
    obtain ⟨ha, hq⟩ := closed_free hone hps
    have hleft := bare_add_formed m [r] rules ps
    calc (oneByOne (r :: rules) (h ++ withMarks m ps)).count m
        ≤ (once rules (once [r] (h ++ withMarks m ps))).count m := ih hrules _
      _ = bare m rules (closed m [r] ps).2 := by
        rw [once_pieces hone hh hps, count_once hrules (List.not_mem_append hh ha) hq]
      _ ≤ bare m (r :: rules) ps := by
        rw [List.singleton_append] at hleft
        omega
      _ = _ := (count_once hmarked hh hps).symm

theorem word_closed {done : List (Rule α)} (hdone : ∀ r ∈ done, Marked m r) {r : Rule α}
    (hr : Marked m r) {p : List α} {ps : List (List α)} (hp : m ∉ p) (hps : ∀ q ∈ ps, m ∉ q) :
    r.word <+: m :: once done (p ++ withMarks m ps)
      ↔ r.word <+: m :: (p ++ (closed m done ps).1) := by
  rw [once_pieces hdone hp hps]
  exact word_of_append hr (withMarks_head _)

/-- No word formed in the text is no word formed in its pieces. -/
theorem formed_eq_zero {done : List (Rule α)} {r : Rule α} (hdone : ∀ r ∈ done, Marked m r)
    (hr : Marked m r) {h : List α} {ps : List (List α)} (hps : ∀ p ∈ ps, m ∉ p)
    (hforms : ¬ Forms done r (h ++ withMarks m ps)) : formed m done [r] ps = 0 := by
  induction ps generalizing h with
  | nil => rfl
  | cons p ps ih =>
    obtain ⟨hp, hps'⟩ := List.forall_mem_cons.mp hps
    have hcut : h ++ withMarks m (p :: ps) = (h ++ m :: p) ++ withMarks m ps := by
      rw [List.append_assoc]
      rfl
    rw [formed, Nat.add_eq_zero_iff]
    refine ⟨if_neg fun ⟨hnone, hq⟩ => hforms ?_, ih hps' (by rwa [hcut] at hforms)⟩
    rw [swap_append, Option.or_eq_none_iff] at hnone
    have hnot : ¬ r.word <+: m :: p :=
      standing_eq_none.mp (swap_eq_none.mp hnone.2) r (List.mem_singleton_self r)
    rw [Ne, swap_eq_none, standing_eq_none, List.forall_mem_singleton, not_not] at hq
    refine ⟨h, m, p ++ withMarks m ps, rfl, (word_closed hdone hr hp hps').mpr hq, ?_⟩
    rwa [word_of_append hr (withMarks_head ps)]

/-- Rules that form no word, in turn, are the rules at once. -/
theorem oneByOne_eq_once_of {rules : List (Rule α)} (hmarked : ∀ r ∈ rules, Marked m r) {s : List α}
    (hnone : ∀ done r later, rules = done ++ r :: later → ¬ Forms done r s) :
    oneByOne rules s = once rules s := by
  obtain ⟨h, ps, rfl, hh, hps⟩ := exists_withMarks m s
  induction rules using List.reverseRecOn with
  | nil => exact (once_nil _).symm
  | append_singleton done r ih =>
    have hdone : ∀ r' ∈ done, Marked m r' := fun r' hr' => hmarked r' (List.mem_append_left _ hr')
    have hr : Marked m r := hmarked r List.mem_concat_self
    have hone : ∀ r' ∈ [r], Marked m r' := List.forall_mem_singleton.mpr hr
    have hbefore : oneByOne done (h ++ withMarks m ps) = once done (h ++ withMarks m ps) := by
      refine ih hdone fun done' r' later' heq => hnone done' r' (later' ++ [r]) ?_
      rw [heq, List.append_assoc, List.cons_append]
    obtain ⟨ha, hq⟩ := closed_free hdone hps
    have hclosed := closed_concat (formed_eq_zero hdone hr hps (hnone done r [] rfl))
    rw [oneByOne_concat, hbefore, once_pieces hdone hh hps, once_pieces hmarked hh hps, hclosed,
      once_pieces hone (List.not_mem_append hh ha) hq, List.append_assoc h]

omit [DecidableEq α] in
/-- Two words that stand at one place are one. -/
theorem Apart.eq {rules : List (Rule α)} (hapart : Apart rules) {r r' : Rule α} (hr : r ∈ rules)
    (hr' : r' ∈ rules) {s : List α} (hs : r.word <+: s) (hs' : r'.word <+: s) : r = r' := by
  by_contra hne
  have hsymm : Std.Symm fun r r' : Rule α => ¬ r.word <+: r'.word ∧ ¬ r'.word <+: r.word :=
    ⟨fun _ _ h => h.symm⟩
  obtain ⟨h, h'⟩ := List.Pairwise.forall hapart hr hr' hne
  rcases List.prefix_or_prefix_of_prefix hs hs' with hpre | hpre
  · exact h hpre
  · exact h' hpre

theorem standing_of {rules : List (Rule α)} (hapart : Apart rules) {r : Rule α} (hr : r ∈ rules)
    {s : List α} (hs : r.word <+: s) : standing rules s = some r := by
  cases h : standing rules s with
  | none => exact absurd hs (standing_eq_none.mp h r hr)
  | some r' =>
    obtain ⟨hr', hs'⟩ := standing_eq_some h
    rw [hapart.eq hr hr' hs hs']

/-- A word formed in the text is one formed in its pieces. -/
theorem formed_pos {done later : List (Rule α)} {r : Rule α} (hapart : Apart (done ++ r :: later))
    {p : List α} {ps : List (List α)} (hnot : ¬ r.word <+: m :: p)
    (hforms : r.word <+: m :: (p ++ (closed m done ps).1)) (ps' : List (List α)) :
    0 < formed m done (r :: later) (ps' ++ p :: ps) := by
  induction ps' with
  | nil =>
    have hr : r ∈ done ++ r :: later := by simp
    have hnone : swap m (done ++ r :: later) p = none := by
      refine swap_eq_none.mpr (standing_eq_none.mpr fun r' hr' hpre => ?_)
      have hlong := hpre.trans (List.prefix_append (m :: p) (closed m done ps).1)
      exact hnot (hapart.eq hr hr' hforms hlong ▸ hpre)
    have hsome : swap m (r :: later) (p ++ (closed m done ps).1) ≠ none := by
      rw [Ne, swap_eq_none, standing_eq_none]
      exact fun h => h r List.mem_cons_self hforms
    rw [List.nil_append, formed, if_pos ⟨hnone, hsome⟩]
    omega
  | cons q ps' ih =>
    rw [List.cons_append, formed]
    omega

/-- **In turn is at once, exactly when no word is formed (proved).** -/
theorem oneByOne_eq_once_iff {rules : List (Rule α)} (hmarked : ∀ r ∈ rules, Marked m r)
    (hapart : Apart rules) (s : List α) : oneByOne rules s = once rules s ↔
      ∀ done r later, rules = done ++ r :: later → ¬ Forms done r s := by
  refine ⟨fun heq done => ?_, oneByOne_eq_once_of hmarked⟩
  -- the first rule that forms a word leaves a mark too few, and none of the later ones adds one
  induction hn : done.length using Nat.strong_induction_on generalizing done with
  | _ n ih =>
  subst hn
  rintro r later rfl ⟨before, c, after, rfl, hforms, hnot⟩
  have hdone : ∀ r' ∈ done, Marked m r' := fun r' hr' => hmarked r' (List.mem_append_left _ hr')
  have hrest : ∀ r' ∈ r :: later, Marked m r' :=
    fun r' hr' => hmarked r' (List.mem_append_right _ hr')
  have hr : Marked m r := hrest r List.mem_cons_self
  have hbefore : oneByOne done (before ++ c :: after) = once done (before ++ c :: after) := by
    refine oneByOne_eq_once_of hdone fun done' r' later' h => ?_
    subst h
    refine ih done'.length ?_ done' rfl r' (later' ++ r :: later) ?_
    · rw [List.length_append, List.length_cons]
      omega
    · rw [List.append_assoc, List.cons_append]
  obtain rfl : m = c := by
    obtain ⟨body, hword, -⟩ := hr.word
    rw [hword] at hforms
    exact (List.cons_prefix_cons.mp hforms).1
  obtain ⟨h, ps', rfl, hh, hps'⟩ := exists_withMarks m before
  obtain ⟨p, ps, rfl, hp, hps⟩ := exists_withMarks m after
  rw [word_closed hdone hr hp hps] at hforms
  rw [word_of_append hr (withMarks_head ps)] at hnot
  have hpieces : h ++ withMarks m ps' ++ m :: (p ++ withMarks m ps)
      = h ++ withMarks m (ps' ++ p :: ps) := by
    rw [List.append_assoc, withMarks_append, withMarks_cons]
  have hfree : ∀ q ∈ ps' ++ p :: ps, m ∉ q :=
    List.forall_mem_append.mpr ⟨hps', List.forall_mem_cons.mpr ⟨hp, hps⟩⟩
  obtain ⟨ha, hq⟩ := closed_free hdone hfree
  have hleft := bare_add_formed m done (r :: later) (ps' ++ p :: ps)
  have hpos := formed_pos hapart hnot hforms ps'
  have hle : (once (done ++ r :: later) (h ++ withMarks m (ps' ++ p :: ps))).count m
      ≤ bare m (r :: later) (closed m done (ps' ++ p :: ps)).2 := by
    rw [hpieces] at heq hbefore
    rw [← heq, oneByOne_append, hbefore]
    refine (marks_oneByOne_le hrest _).trans ?_
    rw [once_pieces hdone hh hfree, count_once hrest (List.not_mem_append hh ha) hq]
  rw [count_once hmarked hh hfree] at hle
  omega

/-- The order of the rules does not matter at once. -/
theorem once_perm {rules rules' : List (Rule α)} (hapart : Apart rules) (hperm : rules.Perm rules')
    (s : List α) : once rules s = once rules' s := by
  have hstand : standing rules = standing rules' := by
    funext t
    cases ht : standing rules' t with
    | none =>
      rw [standing_eq_none] at ht ⊢
      exact fun r hr => ht r (hperm.mem_iff.mp hr)
    | some r =>
      obtain ⟨hmem, hpre⟩ := standing_eq_some ht
      exact standing_of hapart (hperm.mem_iff.mpr hmem) hpre
  have hfrom : ∀ k, onceFrom rules k s = onceFrom rules' k s := by
    induction s with
    | nil => exact fun _ => rfl
    | cons c s ih =>
      intro k
      cases k with
      | zero => rw [onceFrom, onceFrom, hstand]; simp only [ih]
      | succ k => exact ih k
  exact hfrom 0

end Turns

end Replacing
