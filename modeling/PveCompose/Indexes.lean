import PveCompose.Plan

/-!
# The indexes of creates (`plan.rs`)

`execute` gives each create the index its search stops at, and leaves the counter one above.  The
abstract side is `Nat.nth g.Free`, the numbers no mount of the guest has, in order.

* `count_takeIndex` — **one step**: the search passes no free number, and the counter left above
  what it found has passed exactly one more;
* `createKeys_callsFrom` — **PROVED, the run**: with `k` free numbers below the counter, the creates
  that follow get the free numbers from the `k`-th on;
* `creates_take_free` — **PROVED**: a whole plan starts with none below the counter;
* `nth_free_le` — **PROVED**: an index is at most the number of mounts and of creates before it, so
  the `u32` of the source does not wrap while these are few enough to be counted in one.
-/

namespace PveCompose

/-- No mount of the guest has the index. -/
def GuestConfig.Free (g : GuestConfig) (i : ℕ) : Prop := i ∉ g.usedIndexes

instance (g : GuestConfig) : DecidablePred g.Free := fun i =>
  inferInstanceAs (Decidable (i ∉ g.usedIndexes))

def Op.isCreate : Op → Bool
  | .createDisk _ _ _ _ | .createBind _ _ => true
  | _ => false

/-- The key a call sets, if its operation is a create. -/
def createKey : Op × Call → Option Text
  | (op, .set key _) => if op.isCreate then some key else none
  | _ => none

variable {g : GuestConfig}

theorem free_iff {i : ℕ} : g.Free i ↔ ∀ m ∈ g.mounts, m.index ≠ some i := by
  simp only [GuestConfig.Free, GuestConfig.usedIndexes, List.mem_filterMap, not_exists, not_and]

/-! ### The free numbers in order -/

theorem free_infinite (g : GuestConfig) : (Set.ofPred g.Free).Infinite := by
  have hfinite : (Set.ofPred g.Free)ᶜ.Finite := by
    refine (List.finite_toSet g.usedIndexes).subset fun i hi => ?_
    exact not_not.mp hi
  exact Set.infinite_of_finite_compl hfinite

/-- What is passed over is not counted. -/
theorem count_of_gap {p : ℕ → Prop} [DecidablePred p] {a b : ℕ} (hab : a ≤ b)
    (hgap : ∀ j, a ≤ j → j < b → ¬ p j) : Nat.count p b = Nat.count p a := by
  induction b, hab using Nat.le_induction with
  | base => rfl
  | succ b hab ih =>
    rw [Nat.count_succ, if_neg (hgap b hab (Nat.lt_succ_self b)), Nat.add_zero]
    exact ih fun j hj hjb => hgap j hj (Nat.lt_succ_of_lt hjb)

/-- **One search.** -/
theorem count_takeIndex (next : ℕ) :
    takeIndex g.usedIndexes next = Nat.nth g.Free (Nat.count g.Free next) ∧
      Nat.count g.Free (takeIndex g.usedIndexes next + 1) = Nat.count g.Free next + 1 := by
  obtain ⟨hle, hstop, hgap⟩ := takeIndex_spec g.usedIndexes next
  have hfree : g.Free (takeIndex g.usedIndexes next) := hstop
  have hcount : Nat.count g.Free (takeIndex g.usedIndexes next) = Nat.count g.Free next :=
    count_of_gap hle fun j hj hj' hjfree => hjfree (hgap j hj hj')
  constructor
  · rw [← hcount]
    exact (Nat.nth_count hfree).symm
  · rw [Nat.count_succ, if_pos hfree, hcount]

theorem count_freeMpIndex : Nat.count g.Free g.freeMpIndex = 0 := by
  rw [Nat.count_iff_forall_not]
  intro j hj hfree
  exact hfree (mem_usedIndexes_of_lt hj)

/-! ### The creates of a plan -/

theorem createKey_of_isCreate {op : Op} (h : op.isCreate = true) (next : ℕ) :
    createKey (op, (opCall g next op).1) = some (mpKey (takeIndex g.usedIndexes next)) ∧
      (opCall g next op).2 = takeIndex g.usedIndexes next + 1 := by
  cases op with
  | createDisk _ _ _ _ => exact ⟨rfl, rfl⟩
  | createBind _ _ => exact ⟨rfl, rfl⟩
  | _ => cases h

theorem createKey_of_not_isCreate {op : Op} (h : op.isCreate = false) (next : ℕ) :
    createKey (op, (opCall g next op).1) = none ∧ (opCall g next op).2 = next := by
  cases op with
  | createDisk _ _ _ _ => cases h
  | createBind _ _ => cases h
  | _ => exact ⟨rfl, rfl⟩

/-- **The run.**  What is kept is how many free numbers the counter has passed. -/
theorem createKeys_callsFrom (ops : List Op) (next : ℕ) :
    (callsFrom g next ops).filterMap createKey
      = (List.range (ops.countP Op.isCreate)).map
          fun k => mpKey (Nat.nth g.Free (Nat.count g.Free next + k)) := by
  induction ops generalizing next with
  | nil => rfl
  | cons op ops ih =>
    rw [callsFrom]
    by_cases hcreate : op.isCreate = true
    · obtain ⟨hkey, hnext⟩ := createKey_of_isCreate (g := g) hcreate next
      obtain ⟨hindex, hcount⟩ := count_takeIndex (g := g) next
      rw [List.filterMap_cons_some hkey, ih, hnext, hcount, List.countP_cons_of_pos hcreate,
        List.range_succ_eq_map, List.map_cons, List.map_map, hindex, Nat.add_zero]
      congr 1
      refine List.map_congr_left fun k _ => ?_
      show mpKey (Nat.nth g.Free (Nat.count g.Free next + 1 + k)) = _
      rw [Nat.add_right_comm]
      rfl
    · have hother : op.isCreate = false := Bool.not_eq_true _ ▸ hcreate
      obtain ⟨hkey, hnext⟩ := createKey_of_not_isCreate (g := g) hother next
      rw [List.filterMap_cons_none hkey, ih, hnext, List.countP_cons_of_neg hcreate]

theorem mpKey_injective : Function.Injective mpKey := by
  intro i j h
  have hdec : dec i = dec j := List.append_cancel_left h
  rw [← parseNat_dec i, hdec, parseNat_dec]

/-- An index is at most the number of mounts and of creates before it. -/
theorem nth_free_le (k : ℕ) : Nat.nth g.Free k ≤ g.mounts.length + k := by
  have hused : ((Finset.range (g.mounts.length + k + 1)).filter fun i => ¬ g.Free i).card
      ≤ g.mounts.length := by
    have hsub : ((Finset.range (g.mounts.length + k + 1)).filter fun i => ¬ g.Free i)
        ⊆ g.usedIndexes.toFinset := by
      intro i hi
      simpa [GuestConfig.Free] using (Finset.mem_filter.mp hi).2
    calc _ ≤ g.usedIndexes.toFinset.card := Finset.card_le_card hsub
      _ ≤ g.usedIndexes.length := List.toFinset_card_le _
      _ ≤ g.mounts.length := List.length_filterMap_le _ _
  have hcount : k < Nat.count g.Free (g.mounts.length + k + 1) := by
    have hsplit : ((Finset.range (g.mounts.length + k + 1)).filter fun i => g.Free i).card
        + ((Finset.range (g.mounts.length + k + 1)).filter fun i => ¬ g.Free i).card
        = g.mounts.length + k + 1 :=
      (Finset.card_filter_add_card_filter_not _).trans (Finset.card_range _)
    rw [Nat.count_eq_card_filter_range]
    omega
  exact Nat.lt_succ_iff.mp (Nat.nth_lt_of_lt_count hcount)

/-- **Creates take the smallest free indexes in order (proved).**  The `k`-th create of a plan gets
the `k`-th free number; so no two share a key, none has the index of a mount, and the search stops
at a free number from wherever it begins. -/
theorem creates_take_free (g : GuestConfig) (p : Plan) :
    (execute g p).filterMap createKey
        = (List.range (p.ops.countP Op.isCreate)).map (fun k => mpKey (Nat.nth g.Free k)) ∧
      ((execute g p).filterMap createKey).Nodup ∧
      (∀ k, ∀ m ∈ g.mounts, m.index ≠ some (Nat.nth g.Free k)) ∧
      ∀ next, takeIndex g.usedIndexes next ∉ g.usedIndexes := by
  have hkeys : (execute g p).filterMap createKey
      = (List.range (p.ops.countP Op.isCreate)).map fun k => mpKey (Nat.nth g.Free k) := by
    rw [execute, createKeys_callsFrom, count_freeMpIndex]
    simp only [Nat.zero_add]
  have hinfinite := free_infinite g
  refine ⟨hkeys, ?_, fun k => ?_, fun next => (takeIndex_spec _ next).2.1⟩
  · rw [hkeys]
    exact List.nodup_range.map (mpKey_injective.comp (Nat.nth_injective hinfinite))
  · exact free_iff.mp (Nat.nth_mem_of_infinite hinfinite k)

end PveCompose
