import Mathlib

/-!
# Worklists made of groups

A worklist that is planned afresh from a state is often several groups of items one after another,
each item knowing its group by a key.  When the first item is done, its own group is planned anew
and every other group as before.

* `forall₂_append_iff` — lists with a common tail are related exactly when what is before it is;
* `head_own` — the first item of a plan is the first of its own group;
* `pop_iff` — **the new plan is the rest of the old one exactly when the own group's is.**
-/

namespace Grouped

variable {ι ω : Type*} {R : ω → ω → Prop}

theorem forall₂_trans (htrans : ∀ a b c, R a b → R b c → R a c) {l₁ l₂ l₃ : List ω}
    (h : List.Forall₂ R l₁ l₂) (h' : List.Forall₂ R l₂ l₃) : List.Forall₂ R l₁ l₃ := by
  induction h generalizing l₃ with
  | nil =>
    cases h'
    exact .nil
  | cons hab _ ih =>
    cases h' with
    | cons hbc h' => exact .cons (htrans _ _ _ hab hbc) (ih h')

theorem forall₂_append_iff (hrefl : ∀ o, R o o) {l₁ l₂ t : List ω} :
    List.Forall₂ R (l₁ ++ t) (l₂ ++ t) ↔ List.Forall₂ R l₁ l₂ := by
  constructor
  · intro h
    have hlen : l₁.length = l₂.length := by simpa using h.length_eq
    have htake := List.forall₂_take l₁.length h
    rw [List.take_left] at htake
    rw [hlen, List.take_left] at htake
    exact htake
  · intro h
    exact List.rel_append h (List.forall₂_same.mpr fun o _ => hrefl o)

theorem head_own {key : ω → ι} {f : ι → List ω} {cs : List ι} {o : ω} {l : List ω}
    (hkey : ∀ c, ∀ o ∈ f c, key o = c) (h : cs.flatMap f = o :: l) : ∃ l₀, f (key o) = o :: l₀ := by
  induction cs with
  | nil => cases h
  | cons c cs ih =>
    rw [List.flatMap_cons] at h
    cases hfc : f c with
    | nil =>
      rw [hfc, List.nil_append] at h
      exact ih h
    | cons o' l' =>
      rw [hfc, List.cons_append, List.cons.injEq] at h
      obtain ⟨rfl, -⟩ := h
      obtain rfl : key o' = c := hkey c o' (by simp [hfc])
      exact ⟨l', hfc⟩

/-- **The groups after the first item is done.**  `f` plans the groups before and `f'` after; the
first item `o` was first in its own group, and `l₀` is left of that. -/
theorem pop_iff {key : ω → ι} {f f' : ι → List ω} {cs : List ι} {o : ω} {l l₀ : List ω}
    (hrefl : ∀ o, R o o) (hnd : cs.Nodup) (hkey : ∀ c, ∀ o ∈ f c, key o = c)
    (h : cs.flatMap f = o :: l) (hown : f (key o) = o :: l₀)
    (hframe : ∀ c, c ≠ key o → f' c = f c) :
    List.Forall₂ R (cs.flatMap f') l ↔ List.Forall₂ R (f' (key o)) l₀ := by
  induction cs with
  | nil => cases h
  | cons c cs ih =>
    obtain ⟨hc, hnd⟩ := List.nodup_cons.mp hnd
    rw [List.flatMap_cons] at h ⊢
    cases hfc : f c with
    | nil =>
      -- a group with nothing to do is not the item's own
      have hne : c ≠ key o := by
        rintro rfl
        rw [hown] at hfc
        cases hfc
      rw [hfc, List.nil_append] at h
      rw [hframe c hne, hfc, List.nil_append]
      exact ih hnd h
    | cons o' l' =>
      rw [hfc, List.cons_append, List.cons.injEq] at h
      obtain ⟨rfl, rfl⟩ := h
      obtain rfl : key o' = c := hkey c o' (by simp [hfc])
      rw [hfc, List.cons.injEq] at hown
      obtain ⟨-, rfl⟩ := hown
      have hrest : cs.flatMap f' = cs.flatMap f := by
        refine List.flatMap_congr fun d hd => hframe d ?_
        rintro rfl
        exact hc hd
      rw [hrest]
      exact forall₂_append_iff hrefl

end Grouped
