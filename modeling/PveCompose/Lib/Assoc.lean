import Mathlib

/-!
# Association lists in order, written in place

A list of key–value pairs as a store: `get?` finds the first pair of a key, `set` overwrites that
pair where it stands or appends a new one.  The order of the other pairs never changes.

* `get?_set` — **the write rule**: the key written holds the value, every other key what it held;
* `get?_eq_some_iff` — with distinct keys, looking up is membership.
-/

namespace Assoc

variable {α β : Type*} [DecidableEq α]

def get? (k : α) (l : List (α × β)) : Option β := (l.find? fun p => p.1 = k).map Prod.snd

def set (k : α) (v : β) : List (α × β) → List (α × β)
  | [] => [(k, v)]
  | p :: l => if p.1 = k then (k, v) :: l else p :: set k v l

@[simp] theorem get?_nil (k : α) : get? k ([] : List (α × β)) = none := rfl

theorem get?_cons (k : α) (p : α × β) (l : List (α × β)) :
    get? k (p :: l) = if p.1 = k then some p.2 else get? k l := by
  by_cases hp : p.1 = k <;> simp [get?, hp]

/-- **The write rule.** -/
theorem get?_set (k k' : α) (v : β) (l : List (α × β)) :
    get? k' (set k v l) = if k' = k then some v else get? k' l := by
  induction l with
  | nil =>
    rw [set, get?_cons]
    by_cases hk : k' = k
    · simp [hk]
    · simp [hk, Ne.symm hk]
  | cons p l ih =>
    by_cases hp : p.1 = k
    · by_cases hk : k' = k
      · simp [set, hp, get?_cons, hk]
      · simp [set, hp, get?_cons, hk, Ne.symm hk]
    · by_cases hk : k' = k
      · subst hk
        rw [set, if_neg hp, get?_cons, if_neg hp, ih, if_pos rfl, if_pos rfl]
      · rw [set, if_neg hp, get?_cons, get?_cons, ih]
        simp [hk]

theorem get?_eq_none_iff {k : α} {l : List (α × β)} : get? k l = none ↔ k ∉ l.map Prod.fst := by
  induction l with
  | nil => simp
  | cons p l ih =>
    by_cases hp : p.1 = k
    · simp [get?_cons, hp]
    · rw [get?_cons, if_neg hp, ih]
      simp [Ne.symm hp]

theorem mem_of_get? {k : α} {v : β} {l : List (α × β)} (h : get? k l = some v) : (k, v) ∈ l := by
  obtain ⟨p, hp, rfl⟩ := Option.map_eq_some_iff.mp h
  have hk : p.1 = k := by simpa using List.find?_some hp
  rw [← hk]
  exact List.mem_of_find?_eq_some hp

/-- **Looking up is membership** when the keys are distinct. -/
theorem get?_eq_some_iff {k : α} {v : β} {l : List (α × β)} (h : (l.map Prod.fst).Nodup) :
    get? k l = some v ↔ (k, v) ∈ l := by
  refine ⟨mem_of_get?, fun hm => ?_⟩
  induction l with
  | nil => simp at hm
  | cons p l ih =>
    obtain ⟨hp', hl⟩ := List.nodup_cons.mp h
    rcases List.mem_cons.mp hm with rfl | hm
    · simp [get?_cons]
    · have hne : p.1 ≠ k := by
        rintro rfl
        exact hp' (List.mem_map.mpr ⟨_, hm, rfl⟩)
      rw [get?_cons, if_neg hne, ih hl hm]

end Assoc
