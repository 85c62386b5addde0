import Mathlib

/-!
# Words: lists cut at a separator, stripped at the edges, cut once

The list vocabulary under every text format: `List.splitOn` and `List.intercalate` are
Mathlib's; this file adds what a reader of `key=value` lists and of paths needs on top.

* `splitOnce` — the cut at the first separator, with its exact inverse `splitOnce_append` and
  its inversion `splitOnce_eq_some`;
* `strip` — dropping a predicate's elements at both ends; a list is its own strip exactly when
  neither edge satisfies the predicate (`strip_eq_self_iff`);
* `splitOn_append_flatMap` — a head and separated pieces are cut back into themselves;
* `splitOn_prefix_of_append`, `append_prefix_of_splitOn` — a prefix that ends at a separator is a
  prefix of the list of pieces, and back, which is how a text prefix test speaks about path segments.

Everything is over an arbitrary element type.
-/

namespace Words

variable {α : Type*} [DecidableEq α]

/-! ### Cutting once -/

/-- The parts before and after the first `x`, if there is one. -/
def splitOnce (x : α) : List α → Option (List α × List α)
  | [] => none
  | a :: l => if a = x then some ([], l) else (splitOnce x l).map fun p => (a :: p.1, p.2)

/-- **The cut inverts the join** whenever the first part is free of the separator. -/
theorem splitOnce_append {x : α} {k : List α} (v : List α) (h : x ∉ k) :
    splitOnce x (k ++ x :: v) = some (k, v) := by
  induction k with
  | nil => simp [splitOnce]
  | cons a k ih =>
    rw [List.mem_cons, not_or] at h
    simp [splitOnce, Ne.symm h.1, ih h.2]

theorem splitOnce_eq_some {x : α} {l k v : List α} (h : splitOnce x l = some (k, v)) :
    l = k ++ x :: v ∧ x ∉ k := by
  induction l generalizing k with
  | nil => simp [splitOnce] at h
  | cons a l ih =>
    by_cases ha : a = x
    · simp only [splitOnce, ha, if_true, Option.some.injEq, Prod.mk.injEq] at h
      obtain ⟨rfl, rfl⟩ := h
      simp [ha]
    · simp only [splitOnce, ha, if_false, Option.map_eq_some_iff] at h
      obtain ⟨⟨k', v'⟩, hl, hp⟩ := h
      obtain ⟨rfl, rfl⟩ := Prod.mk.injEq .. ▸ hp
      obtain ⟨rfl, hk⟩ := ih hl
      exact ⟨rfl, by simp [Ne.symm ha, hk]⟩

theorem splitOnce_eq_none_iff {x : α} {l : List α} : splitOnce x l = none ↔ x ∉ l := by
  induction l with
  | nil => simp [splitOnce]
  | cons a l ih =>
    by_cases ha : a = x
    · simp [splitOnce, ha]
    · simp [splitOnce, ha, ih, Ne.symm ha]

/-! ### Stripping the edges -/

/-- `l` without the elements satisfying `p` at its two ends. -/
def strip (p : α → Bool) (l : List α) : List α := (l.dropWhile p).rdropWhile p

omit [DecidableEq α] in
/-- A list whose two edges fail `p` is left alone by `strip`. -/
theorem strip_of_edges {p : α → Bool} {l : List α} (hh : ∀ a ∈ l.head?, p a = false)
    (hl : ∀ a ∈ l.getLast?, p a = false) : strip p l = l := by
  have hd : l.dropWhile p = l := by
    cases l with
    | nil => rfl
    | cons a l => simp [hh a (by simp)]
  rw [strip, hd, List.rdropWhile_eq_self_iff]
  intro hne
  simpa using hl (l.getLast hne) (List.getLast?_eq_some_getLast hne)

omit [DecidableEq α] in
theorem head?_dropWhile {p : α → Bool} (l : List α) : ∀ a ∈ (l.dropWhile p).head?, p a = false := by
  induction l with
  | nil => simp
  | cons b l ih =>
    by_cases hb : p b
    · simpa [List.dropWhile_cons, hb] using ih
    · intro a ha
      simp only [List.dropWhile_cons, hb] at ha
      simp_all

omit [DecidableEq α] in
/-- The edges of a stripped list fail `p`: nothing is left to drop. -/
theorem strip_edges (p : α → Bool) (l : List α) :
    (∀ a ∈ (strip p l).head?, p a = false) ∧ (∀ a ∈ (strip p l).getLast?, p a = false) := by
  constructor
  · intro a ha
    obtain ⟨t, ht⟩ := List.rdropWhile_prefix (p := p) (l := l.dropWhile p)
    refine head?_dropWhile l a ?_
    rw [← ht]
    cases hs : List.rdropWhile p (l.dropWhile p) with
    | nil => simp [strip, hs] at ha
    | cons b m => simpa [strip, hs] using ha
  · intro a ha
    have hne : strip p l ≠ [] := by rintro h0; simp [h0] at ha
    have hlast := List.rdropWhile_last_not p (l.dropWhile p) hne
    rw [List.getLast?_eq_some_getLast hne] at ha
    have hal : (strip p l).getLast hne = a := by simpa using ha
    have hbool : ¬ p a = true := by
      rw [← hal]
      exact hlast
    simpa using hbool

omit [DecidableEq α] in
/-- **Stripping is a projection**: the fixed points are the lists with clean edges. -/
theorem strip_eq_self_iff {p : α → Bool} {l : List α} :
    strip p l = l ↔ (∀ a ∈ l.head?, p a = false) ∧ (∀ a ∈ l.getLast?, p a = false) := by
  constructor
  · intro h
    have he := strip_edges p l
    rwa [h] at he
  · rintro ⟨hh, hl⟩
    exact strip_of_edges hh hl

omit [DecidableEq α] in
@[simp] theorem strip_strip (p : α → Bool) (l : List α) : strip p (strip p l) = strip p l :=
  strip_eq_self_iff.mpr (strip_edges p l)

omit [DecidableEq α] in
/-- Stripping only ever drops elements. -/
theorem strip_subset (p : α → Bool) (l : List α) : strip p l ⊆ l := by
  intro a ha
  exact (List.dropWhile_sublist p).subset ((List.rdropWhile_prefix p _).subset ha)

/-! ### Pieces -/

/-- No piece holds the separator it was cut at. -/
theorem not_mem_of_mem_splitOn {x : α} {l w : List α} (h : w ∈ l.splitOn x) : x ∉ w := by
  induction l generalizing w with
  | nil => simp_all
  | cons a l ih =>
    rw [List.splitOn_cons_eq_if_modifyHead] at h
    by_cases ha : a = x
    · simp only [ha, beq_self_eq_true, if_true, List.mem_cons] at h
      rcases h with rfl | h
      · simp
      · exact ih h
    · simp only [beq_iff_eq, ha, if_false] at h
      obtain ⟨w', ws, hws⟩ := List.exists_cons_of_ne_nil (List.splitOn_ne_nil x l)
      rw [hws, List.modifyHead_cons, List.mem_cons] at h
      rcases h with rfl | h
      · simp [Ne.symm ha, ih (w := w') (by simp [hws])]
      · exact ih (by simp [hws, h])

/-- **Pieces come back**: a head and pieces, each after a separator, are cut into exactly those. -/
theorem splitOn_append_flatMap {x : α} {v : List α} {os : List (List α)} (hv : x ∉ v)
    (ho : ∀ o ∈ os, x ∉ o) : (v ++ os.flatMap fun o => x :: o).splitOn x = v :: os := by
  induction os generalizing v with
  | nil => simpa using List.splitOn_eq_singleton hv
  | cons o os ih =>
    have ht := ih (ho o (by simp)) (fun o' ho' => ho o' (by simp [ho']))
    rw [List.flatMap_cons, List.cons_append, List.splitOn_append_cons_self_of_not_mem hv, ht]

/-- Words joined with a last text are cut into the words and the pieces of the last text. -/
theorem splitOn_intercalate_concat {x : α} {ls : List (List α)} {t : List α}
    (h : ∀ l ∈ ls, x ∉ l) : ([x].intercalate (ls ++ [t])).splitOn x = ls ++ t.splitOn x := by
  induction ls with
  | nil => simp
  | cons l ls ih =>
    have hne : ls ++ [t] ≠ [] := by simp
    rw [List.cons_append, List.intercalate_cons_of_ne_nil hne, List.append_assoc,
      List.singleton_append, List.splitOn_append_cons_self_of_not_mem (h l (by simp)),
      ih fun l' hl' => h l' (by simp [hl'])]
    rfl

/-- **Prefixes of texts are prefixes of pieces.**  A list that goes on after `r` with a separator
has the pieces of `r` as its first pieces. -/
theorem splitOn_prefix_of_append {x : α} {r l : List α} (h : r ++ [x] <+: l) :
    r.splitOn x <+: l.splitOn x := by
  obtain ⟨t, rfl⟩ := h
  rw [List.append_assoc, List.singleton_append, List.splitOn_append_cons_self]
  exact List.prefix_append _ _

omit [DecidableEq α] in
/-- Pieces joined in two parts. -/
theorem intercalate_append {s : List α} {ls ms : List (List α)} (hls : ls ≠ []) (hms : ms ≠ []) :
    s.intercalate (ls ++ ms) = s.intercalate ls ++ s ++ s.intercalate ms := by
  induction ls with
  | nil => exact absurd rfl hls
  | cons l ls ih =>
    cases ls with
    | nil => rw [List.singleton_append, List.intercalate_cons_of_ne_nil hms, List.intercalate_singleton]
    | cons l' ls =>
      have hne : l' :: ls ++ ms ≠ [] := by simp
      rw [List.cons_append, List.intercalate_cons_of_ne_nil hne, ih (List.cons_ne_nil _ _),
        List.intercalate_cons_of_ne_nil (List.cons_ne_nil _ _)]
      simp only [List.append_assoc]

/-- **Prefixes of pieces are prefixes of texts**, up to a separator. -/
theorem append_prefix_of_splitOn {x : α} {r l : List α} (h : r.splitOn x <+: l.splitOn x) :
    r = l ∨ r ++ [x] <+: l := by
  obtain ⟨t, ht⟩ := h
  have hl : [x].intercalate (r.splitOn x ++ t) = l := by
    rw [ht, List.intercalate_splitOn]
  by_cases hnil : t = []
  · left
    rw [hnil, List.append_nil, List.intercalate_splitOn] at hl
    exact hl
  · right
    rw [intercalate_append (List.splitOn_ne_nil x r) hnil, List.intercalate_splitOn] at hl
    exact ⟨_, hl⟩

end Words
