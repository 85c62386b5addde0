import PveCompose.Lib.Script
import PveCompose.Text

/-!
# The line diff (`ops/diff.rs`)

`diff` prints the compose file a guest has against the one its document renders to: a table of
longest common subsequences, filled from the ends of the two texts, and a walk from their
beginnings that the table leads.  A table access is an `Option` here, `none` where the index is
out of bounds.  A cell of the table counts no more than the lines of the shorter text, so it fits a
`u32` whenever the table itself fits an address space; the cells are natural numbers.

* `Filled.cell` / `fill_filled` — **the invariant of the loops**: every cell that was filled holds
  the length of a longest common subsequence of what is left of the two texts there;
* `walkLines_follows` — **the invariant of the walk**: it keeps as many lines as the cell it starts at;
* `lineDiff_minimal` — **PROVED**: every access is in bounds, the walk ends, the marked lines are
  the two texts, and no script from the one to the other has fewer marks.
-/

namespace PveCompose

open Script

/-! ### Lines -/

/-- A line without the carriage return of its ending. -/
def dropCr (l : Text) : Text := if l.getLast? = some '\r' then l.dropLast else l

/-- `str::lines`: what comes before each line feed, and a last line that has none. -/
def lines (s : Text) : List Text :=
  let pieces := s.splitOn '\n'
  pieces.dropLast.map dropCr ++ if pieces.getLastD [] = [] then [] else [pieces.getLastD []]

/-! ### The table -/

abbrev Table := List (List ℕ)

/-- `lcs[i][j]`. -/
def Table.cell (t : Table) (i j : ℕ) : Option ℕ := t[i]?.bind fun row => row[j]?

/-- `lcs[i][j] = v`. -/
def Table.set (t : Table) (i j v : ℕ) : Option Table :=
  t[i]?.bind fun row => if j < row.length then some (List.set t i (row.set j v)) else none

/-- `(0..n).rev()`. -/
def downFrom : ℕ → List ℕ
  | 0 => []
  | n + 1 => n :: downFrom n

/-- The body of the two loops. -/
def fillCell (a b : List Text) (i : ℕ) (t : Table) (j : ℕ) : Option Table := do
  let x ← a[i]?
  let y ← b[j]?
  if x = y then
    let v ← t.cell (i + 1) (j + 1)
    t.set i j (v + 1)
  else
    let v ← t.cell (i + 1) j
    let w ← t.cell i (j + 1)
    t.set i j (max v w)

def fillRow (a b : List Text) (t : Table) (i : ℕ) : Option Table :=
  (downFrom b.length).foldlM (fillCell a b i) t

def fill (a b : List Text) : Option Table :=
  (downFrom a.length).foldlM (fillRow a b)
    (List.replicate (a.length + 1) (List.replicate (b.length + 1) 0))

/-! ### The walk -/

/-- The `while` loop from `i` and `j`; no script when the steps run out first. -/
def walkLines (a b : List Text) (t : Table) : ℕ → ℕ → ℕ → Option (List (Mark × Text))
  | 0, _, _ => none
  | steps + 1, i, j =>
    if i < a.length ∨ j < b.length then
      if i < a.length ∧ j < b.length ∧ a[i]? = b[j]? then do
        let x ← a[i]?
        let rest ← walkLines a b t steps (i + 1) (j + 1)
        some ((.same, x) :: rest)
      else if i < a.length then
        -- `j == m || lcs[i + 1][j] >= lcs[i][j + 1]`: no access on the last column
        if j = b.length then do
          let x ← a[i]?
          let rest ← walkLines a b t steps (i + 1) j
          some ((.minus, x) :: rest)
        else do
          let v ← t.cell (i + 1) j
          let w ← t.cell i (j + 1)
          if w ≤ v then do
            let x ← a[i]?
            let rest ← walkLines a b t steps (i + 1) j
            some ((.minus, x) :: rest)
          else do
            let y ← b[j]?
            let rest ← walkLines a b t steps i (j + 1)
            some ((.plus, y) :: rest)
      else do
        let y ← b[j]?
        let rest ← walkLines a b t steps i (j + 1)
        some ((.plus, y) :: rest)
    else some []

/-- The marked lines; a walk takes at most one step a line. -/
def marked (a b : List Text) : Option (List (Mark × Text)) := do
  let t ← fill a b
  walkLines a b t (a.length + b.length + 1) 0 0

def Mark.sign : Mark → Text
  | .same => "  "
  | .minus => "- "
  | .plus => "+ "

/-- `line_diff`. -/
def lineDiff (a b : Text) : Option Text :=
  (marked (lines a) (lines b)).map fun out =>
    out.flatMap fun e => Mark.sign e.1 ++ e.2 ++ ['\n']

example : lineDiff "a\nb\nc\n" "a\nx\nc\n" = some "  a\n- b\n+ x\n  c\n".toList := by decide

/-! ### What a filled table holds -/

variable {a b : List Text} {t t' : Table} {i j v : ℕ}

/-- The length of a longest common subsequence of the two texts from line `i` and line `j` on. -/
def left (a b : List Text) (i j : ℕ) : ℕ := lcs (a.drop i) (b.drop j)

theorem left_same {x : Text} (ha : a[i]? = some x) (hb : b[j]? = some x) :
    left a b i j = left a b (i + 1) (j + 1) + 1 := by
  obtain ⟨hi, rfl⟩ := List.getElem?_eq_some_iff.mp ha
  obtain ⟨hj, hx⟩ := List.getElem?_eq_some_iff.mp hb
  rw [left, List.drop_eq_getElem_cons hi, List.drop_eq_getElem_cons hj, hx, lcs_cons_same, left]

theorem left_ne {x y : Text} (ha : a[i]? = some x) (hb : b[j]? = some y) (h : x ≠ y) :
    left a b i j = max (left a b (i + 1) j) (left a b i (j + 1)) := by
  obtain ⟨hi, rfl⟩ := List.getElem?_eq_some_iff.mp ha
  obtain ⟨hj, rfl⟩ := List.getElem?_eq_some_iff.mp hb
  rw [left, List.drop_eq_getElem_cons hi, List.drop_eq_getElem_cons hj, lcs_cons_ne h, left, left,
    List.drop_eq_getElem_cons hi, List.drop_eq_getElem_cons hj]

theorem left_bottom (h : a.length ≤ i) : left a b i j = 0 := by
  rw [left, List.drop_eq_nil_of_le h, lcs_nil_left]

theorem left_right (h : b.length ≤ j) : left a b i j = 0 := by
  rw [left, List.drop_eq_nil_of_le h, lcs_nil_right]

/-- A write that is in bounds sets its cell and no other. -/
theorem Table.cell_set {w : ℕ} (h : t.cell i j = some w) :
    ∃ t', t.set i j v = some t' ∧
      ∀ i' j', t'.cell i' j' = if i' = i ∧ j' = j then some v else t.cell i' j' := by
  obtain ⟨row, hrow, hj⟩ := Option.bind_eq_some_iff.mp h
  obtain ⟨hi, hrow'⟩ := List.getElem?_eq_some_iff.mp hrow
  have hlen : j < row.length := (List.getElem?_eq_some_iff.mp hj).1
  refine ⟨List.set t i (row.set j v), ?_, fun i' j' => ?_⟩
  · rw [Table.set, hrow, Option.bind_some, if_pos hlen]
  · rw [Table.cell, List.getElem?_set]
    by_cases hii : i = i'
    · subst hii
      rw [if_pos rfl, if_pos hi, Option.bind_some, List.getElem?_set]
      by_cases hjj : j = j'
      · subst hjj
        rw [if_pos rfl, if_pos hlen, if_pos ⟨rfl, rfl⟩]
      · rw [if_neg hjj, if_neg fun h => hjj h.2.symm, Table.cell, hrow, Option.bind_some]
    · rw [if_neg hii, if_neg fun h => hii h.1.symm, Table.cell]

/-- The table when the loops are about to fill cell `j - 1` of row `i`: every cell is there, the
last column is zero, and what comes after is filled. -/
structure Filled (a b : List Text) (t : Table) (i j : ℕ) : Prop where
  shape : ∀ i' ≤ a.length, ∀ j' ≤ b.length, ∃ v, t.cell i' j' = some v
  last : ∀ i' ≤ a.length, t.cell i' b.length = some 0
  cell : ∀ i' ≤ a.length, ∀ j' ≤ b.length, i < i' ∨ i' = i ∧ j ≤ j' →
    t.cell i' j' = some (left a b i' j')

/-- The table of zeros, no row filled. -/
theorem filled_zeros : Filled a b
    (List.replicate (a.length + 1) (List.replicate (b.length + 1) 0)) a.length 0 := by
  have hzero : ∀ i' ≤ a.length, ∀ j' ≤ b.length,
      Table.cell (List.replicate (a.length + 1) (List.replicate (b.length + 1) 0)) i' j'
        = some 0 := by
    intro i' hi j' hj
    rw [Table.cell, List.getElem?_replicate_of_lt (by omega), Option.bind_some,
      List.getElem?_replicate_of_lt (by omega)]
  refine ⟨fun i' hi j' hj => ⟨0, hzero i' hi j' hj⟩, fun i' hi => hzero i' hi _ le_rfl, ?_⟩
  intro i' hi j' hj h
  rw [hzero i' hi j' hj, left_bottom (by omega)]

/-- A row begins with its last column, which is zero. -/
theorem Filled.row (h : Filled a b t (i + 1) 0) : Filled a b t i b.length := by
  refine ⟨h.shape, h.last, fun i' hi j' hj hafter => ?_⟩
  rcases hafter with hlt | ⟨rfl, hle⟩
  · exact h.cell i' hi j' hj (by omega)
  · obtain rfl : j' = b.length := le_antisymm hj hle
    rw [h.last i' hi, left_right le_rfl]

/-- **The step lemma (proved)**: the cell that is filled holds what is left there. -/
theorem fillCell_filled (h : Filled a b t i (j + 1)) (hi : i < a.length) (hj : j < b.length) :
    ∃ t', fillCell a b i t j = some t' ∧ Filled a b t' i j := by
  have hx : a[i]? = some a[i] := List.getElem?_eq_getElem hi
  have hy : b[j]? = some b[j] := List.getElem?_eq_getElem hj
  -- whatever is written, it is written to a cell that is there and is no other
  have hset : ∃ t', t.set i j (left a b i j) = some t' ∧ Filled a b t' i j := by
    obtain ⟨w, hw⟩ := h.shape i hi.le j hj.le
    obtain ⟨t', ht', hcell⟩ := Table.cell_set (v := left a b i j) hw
    refine ⟨t', ht', fun i' hi' j' hj' => ?_, fun i' hi' => ?_, fun i' hi' j' hj' hafter => ?_⟩
    · rw [hcell]
      split_ifs
      · exact ⟨_, rfl⟩
      · exact h.shape i' hi' j' hj'
    · rw [hcell, if_neg (by omega)]
      exact h.last i' hi'
    · rw [hcell]
      split_ifs with heq
      · rw [heq.1, heq.2]
      · exact h.cell i' hi' j' hj' (by omega)
  obtain ⟨t', ht', hfilled⟩ := hset
  refine ⟨t', ?_, hfilled⟩
  rw [fillCell, hx, hy]
  by_cases hxy : a[i] = b[j]
  · have hdiag := h.cell (i + 1) (by omega) (j + 1) (by omega) (by omega)
    have hleft := left_same hx (hxy ▸ hy)
    show (if a[i] = b[j] then _ else _) = some t'
    rw [if_pos hxy, hdiag]
    show t.set i j (left a b (i + 1) (j + 1) + 1) = some t'
    rw [← hleft, ht']
  · have hdown := h.cell (i + 1) (by omega) j hj.le (by omega)
    have hright := h.cell i hi.le (j + 1) (by omega) (by omega)
    have hleft := left_ne hx hy hxy
    show (if a[i] = b[j] then _ else _) = some t'
    rw [if_neg hxy, hdown, hright]
    show t.set i j (max (left a b (i + 1) j) (left a b i (j + 1))) = some t'
    rw [← hleft, ht']

theorem fillRow_filled (hi : i < a.length) (h : Filled a b t (i + 1) 0) :
    ∃ t', fillRow a b t i = some t' ∧ Filled a b t' i 0 := by
  have hloop : ∀ m ≤ b.length, ∀ t, Filled a b t i m →
      ∃ t', (downFrom m).foldlM (fillCell a b i) t = some t' ∧ Filled a b t' i 0 := by
    intro m
    induction m with
    | zero => exact fun _ t ht => ⟨t, rfl, ht⟩
    | succ m ih =>
      intro hm t ht
      obtain ⟨t₁, h₁, hfilled⟩ := fillCell_filled ht hi hm
      obtain ⟨t₂, h₂, hdone⟩ := ih (by omega) t₁ hfilled
      exact ⟨t₂, by rw [downFrom, List.foldlM_cons, h₁]; exact h₂, hdone⟩
  exact hloop b.length le_rfl t h.row

/-- **The loops fill the whole table (proved).** -/
theorem fill_filled (a b : List Text) : ∃ t, fill a b = some t ∧ Filled a b t 0 0 := by
  have hloop : ∀ n ≤ a.length, ∀ t, Filled a b t n 0 →
      ∃ t', (downFrom n).foldlM (fillRow a b) t = some t' ∧ Filled a b t' 0 0 := by
    intro n
    induction n with
    | zero => exact fun _ t ht => ⟨t, rfl, ht⟩
    | succ n ih =>
      intro hn t ht
      obtain ⟨t₁, h₁, hfilled⟩ := fillRow_filled hn ht
      obtain ⟨t₂, h₂, hdone⟩ := ih (by omega) t₁ hfilled
      exact ⟨t₂, by rw [downFrom, List.foldlM_cons, h₁]; exact h₂, hdone⟩
  exact hloop a.length le_rfl _ filled_zeros

/-! ### What the walk produces -/

/-- A script from what is left of the one text to what is left of the other, keeping as many lines
as can be kept. -/
structure Follows (a b : List Text) (i j : ℕ) (out : List (Mark × Text)) : Prop where
  olds : Script.olds out = a.drop i
  news : Script.news out = b.drop j
  sames : (Script.sames out).length = left a b i j

theorem Follows.same {out : List (Mark × Text)} (h : Follows a b (i + 1) (j + 1) out)
    (hi : i < a.length) (hj : j < b.length) (hxy : a[i]? = b[j]?) :
    Follows a b i j ((.same, a[i]) :: out) := by
  have hx : a[i]? = some a[i] := List.getElem?_eq_getElem hi
  have hy : b[j]? = some b[j] := List.getElem?_eq_getElem hj
  have heq : a[i] = b[j] := by rwa [hx, hy, Option.some.injEq] at hxy
  refine ⟨?_, ?_, ?_⟩
  · rw [olds_same, h.olds, List.drop_eq_getElem_cons hi]
  · rw [news_same, h.news, List.drop_eq_getElem_cons hj, heq]
  · rw [sames_same, List.length_cons, h.sames, left_same hx (hxy ▸ hx)]

theorem Follows.minus {out : List (Mark × Text)} (h : Follows a b (i + 1) j out)
    (hi : i < a.length) (hleft : left a b i j = left a b (i + 1) j) :
    Follows a b i j ((.minus, a[i]) :: out) := by
  refine ⟨?_, h.news, h.sames.trans hleft.symm⟩
  rw [olds_minus, h.olds, List.drop_eq_getElem_cons hi]

theorem Follows.plus {out : List (Mark × Text)} (h : Follows a b i (j + 1) out)
    (hj : j < b.length) (hleft : left a b i j = left a b i (j + 1)) :
    Follows a b i j ((.plus, b[j]) :: out) := by
  refine ⟨h.olds, ?_, h.sames.trans hleft.symm⟩
  rw [news_plus, h.news, List.drop_eq_getElem_cons hj]

/-- **The walk follows the table (proved)**, and ends within one step a line. -/
theorem walkLines_follows (ht : Filled a b t 0 0) {steps : ℕ} (hi : i ≤ a.length) (hj : j ≤ b.length)
    (hsteps : (a.length - i) + (b.length - j) < steps) :
    ∃ out, walkLines a b t steps i j = some out ∧ Follows a b i j out := by
  have hcell : ∀ i' ≤ a.length, ∀ j' ≤ b.length, t.cell i' j' = some (left a b i' j') :=
    fun i' hi' j' hj' => ht.cell i' hi' j' hj' (by omega)
  induction steps generalizing i j with
  | zero => omega
  | succ steps ih =>
    rw [walkLines]
    by_cases hmore : i < a.length ∨ j < b.length
    case neg =>
      refine ⟨[], if_neg hmore, ?_, ?_, ?_⟩
      · rw [olds_nil, List.drop_eq_nil_of_le (by omega)]
      · rw [news_nil, List.drop_eq_nil_of_le (by omega)]
      · rw [sames_nil, left_bottom (by omega), List.length_nil]
    rw [if_pos hmore]
    by_cases hsame : i < a.length ∧ j < b.length ∧ a[i]? = b[j]?
    case pos =>
      obtain ⟨hia, hjb, hxy⟩ := hsame
      obtain ⟨out, hout, hfollows⟩ := ih (i := i + 1) (j := j + 1) hia hjb (by omega)
      refine ⟨_, ?_, hfollows.same hia hjb hxy⟩
      rw [if_pos ⟨hia, hjb, hxy⟩, List.getElem?_eq_getElem hia, hout]
      rfl
    rw [if_neg hsame]
    by_cases hia : i < a.length
    case neg =>
      have hjb : j < b.length := by omega
      obtain ⟨out, hout, hfollows⟩ := ih (i := i) (j := j + 1) hi hjb (by omega)
      refine ⟨_, ?_, hfollows.plus hjb ?_⟩
      · rw [if_neg hia, List.getElem?_eq_getElem hjb, hout]
        rfl
      · rw [left_bottom (by omega), left_bottom (by omega)]
    rw [if_pos hia]
    by_cases hjb : j = b.length
    case pos =>
      obtain ⟨out, hout, hfollows⟩ := ih (i := i + 1) (j := j) hia hj (by omega)
      refine ⟨_, ?_, hfollows.minus hia ?_⟩
      · rw [if_pos hjb, List.getElem?_eq_getElem hia, hout]
        rfl
      · rw [left_right hjb.ge, left_right hjb.ge]
    have hjb' : j < b.length := by omega
    have hx : a[i]? = some a[i] := List.getElem?_eq_getElem hia
    have hy : b[j]? = some b[j] := List.getElem?_eq_getElem hjb'
    have hne : a[i] ≠ b[j] := fun heq => hsame ⟨hia, hjb', by rw [hx, hy, heq]⟩
    have hleft := left_ne hx hy hne
    rw [if_neg hjb, hcell _ hia _ hj, hcell _ hi _ hjb', hx, hy]
    by_cases hle : left a b i (j + 1) ≤ left a b (i + 1) j
    · obtain ⟨out, hout, hfollows⟩ := ih (i := i + 1) (j := j) hia hj (by omega)
      refine ⟨_, ?_, hfollows.minus hia (by omega)⟩
      show (if left a b i (j + 1) ≤ left a b (i + 1) j then _ else _) = _
      rw [if_pos hle, hout]
      rfl
    · obtain ⟨out, hout, hfollows⟩ := ih (i := i) (j := j + 1) hi hjb' (by omega)
      refine ⟨_, ?_, hfollows.plus hjb' (by omega)⟩
      show (if left a b i (j + 1) ≤ left a b (i + 1) j then _ else _) = _
      rw [if_neg hle, hout]
      rfl

/-- **The line diff is a correct and minimal one (proved).** -/
theorem lineDiff_minimal (a b : Text) : ∃ out : List (Mark × Text),
    marked (lines a) (lines b) = some out ∧
    lineDiff a b = some (out.flatMap fun e => Mark.sign e.1 ++ e.2 ++ ['\n']) ∧
    olds out = lines a ∧ news out = lines b ∧
    IsGreatest {n | ∃ cs : List Text, cs.Sublist (lines a) ∧ cs.Sublist (lines b) ∧ cs.length = n}
      (sames out).length ∧
    ∀ out' : List (Mark × Text), olds out' = lines a → news out' = lines b →
      changes out ≤ changes out' := by
  obtain ⟨t, ht, hfilled⟩ := fill_filled (lines a) (lines b)
  obtain ⟨out, hout, hfollows⟩ := walkLines_follows hfilled (Nat.zero_le _) (Nat.zero_le _)
    (show _ < (lines a).length + (lines b).length + 1 by omega)
  have hmarked : marked (lines a) (lines b) = some out := by
    rw [marked, ht]
    exact hout
  have hsames : (sames out).length = lcs (olds out) (news out) := by
    rw [hfollows.sames, hfollows.olds, hfollows.news, left]
  refine ⟨out, hmarked, by rw [lineDiff, hmarked]; rfl, hfollows.olds, hfollows.news, ?_, ?_⟩
  · rw [hsames, hfollows.olds, hfollows.news]
    exact lcs_isGreatest _ _
  · intro out' hold hnew
    exact changes_le_of_sames (hold.trans hfollows.olds.symm) (hnew.trans hfollows.news.symm) hsames

end PveCompose
