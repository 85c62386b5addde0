import Mathlib

/-!
# Edit scripts and longest common subsequences

A script from one list to another marks each element as kept, removed or added: what it does not
add is the old list (`olds`), what it does not remove is the new one (`news`).

* `lcs` — the length of a longest common subsequence, by recursion on the heads;
* `lcs_isGreatest` — **PROVED**: it is one: some common subsequence has that length, none is longer;
* `changes_add_sames` — a script changes as little as it keeps much;
* `changes_le_of_sames` — **PROVED**: a script that keeps `lcs` elements changes as few as any.

Everything is over an arbitrary element type.
-/

namespace Script

variable {α : Type*}

inductive Mark where
  | same : Mark
  | minus : Mark
  | plus : Mark
deriving DecidableEq

/-- A marked element, `true` where the mark is none of the excluded ones. -/
def part (p : Mark → Bool) (s : List (Mark × α)) : List α := (s.filter fun e => p e.1).map Prod.snd

/-- The elements a script does not add. -/
def olds (s : List (Mark × α)) : List α := part (· ≠ .plus) s

/-- The elements a script does not remove. -/
def news (s : List (Mark × α)) : List α := part (· ≠ .minus) s

def sames (s : List (Mark × α)) : List α := part (· = .same) s

/-- How many elements a script removes or adds. -/
def changes (s : List (Mark × α)) : ℕ := (part (· ≠ .same) s).length

section Marks

variable (a : α) (s : List (Mark × α))

@[simp] theorem olds_nil : olds ([] : List (Mark × α)) = [] := rfl
@[simp] theorem olds_same : olds ((.same, a) :: s) = a :: olds s := rfl
@[simp] theorem olds_minus : olds ((.minus, a) :: s) = a :: olds s := rfl
@[simp] theorem olds_plus : olds ((.plus, a) :: s) = olds s := rfl
@[simp] theorem news_nil : news ([] : List (Mark × α)) = [] := rfl
@[simp] theorem news_same : news ((.same, a) :: s) = a :: news s := rfl
@[simp] theorem news_minus : news ((.minus, a) :: s) = news s := rfl
@[simp] theorem news_plus : news ((.plus, a) :: s) = a :: news s := rfl
@[simp] theorem sames_nil : sames ([] : List (Mark × α)) = [] := rfl
@[simp] theorem sames_same : sames ((.same, a) :: s) = a :: sames s := rfl
@[simp] theorem sames_minus : sames ((.minus, a) :: s) = sames s := rfl
@[simp] theorem sames_plus : sames ((.plus, a) :: s) = sames s := rfl
@[simp] theorem changes_nil : changes ([] : List (Mark × α)) = 0 := rfl
@[simp] theorem changes_same : changes ((.same, a) :: s) = changes s := rfl
@[simp] theorem changes_minus : changes ((.minus, a) :: s) = changes s + 1 := rfl
@[simp] theorem changes_plus : changes ((.plus, a) :: s) = changes s + 1 := rfl

end Marks

/-- What is kept is in both lists, in order. -/
theorem part_sublist {p q : Mark → Bool} (h : ∀ m, p m = true → q m = true) (s : List (Mark × α)) :
    (part p s).Sublist (part q s) :=
  (List.monotone_filter_right s fun e => h e.1).map Prod.snd

theorem sames_sublist_olds (s : List (Mark × α)) : (sames s).Sublist (olds s) :=
  part_sublist (fun m => by cases m <;> decide) s

theorem sames_sublist_news (s : List (Mark × α)) : (sames s).Sublist (news s) :=
  part_sublist (fun m => by cases m <;> decide) s

/-- An element that is kept is in both lists, any other is in one. -/
theorem changes_add_sames (s : List (Mark × α)) :
    changes s + 2 * (sames s).length = (olds s).length + (news s).length := by
  induction s with
  | nil => rfl
  | cons e s ih =>
    obtain ⟨m, a⟩ := e
    cases m with
    | same =>
      simp only [changes_same, sames_same, olds_same, news_same, List.length_cons]
      omega
    | minus =>
      simp only [changes_minus, sames_minus, olds_minus, news_minus, List.length_cons]
      omega
    | plus =>
      simp only [changes_plus, sames_plus, olds_plus, news_plus, List.length_cons]
      omega

/-! ### Longest common subsequences -/

variable [DecidableEq α]

/-- The length of a longest common subsequence. -/
def lcs : List α → List α → ℕ
  | [], _ => 0
  | _ :: _, [] => 0
  | a :: as, b :: bs => if a = b then lcs as bs + 1 else max (lcs as (b :: bs)) (lcs (a :: as) bs)
termination_by as bs => as.length + bs.length

@[simp] theorem lcs_nil_left (bs : List α) : lcs [] bs = 0 := by
  rw [lcs]

@[simp] theorem lcs_nil_right (as : List α) : lcs as [] = 0 := by
  cases as <;> rw [lcs]

theorem lcs_cons_same (a : α) (as bs : List α) : lcs (a :: as) (a :: bs) = lcs as bs + 1 := by
  rw [lcs, if_pos rfl]

theorem lcs_cons_ne {a b : α} (h : a ≠ b) (as bs : List α) :
    lcs (a :: as) (b :: bs) = max (lcs as (b :: bs)) (lcs (a :: as) bs) := by
  rw [lcs, if_neg h]

/-- No common subsequence is longer. -/
theorem length_le_lcs {as bs cs : List α} (ha : cs.Sublist as) (hb : cs.Sublist bs) :
    cs.length ≤ lcs as bs := by
  induction as, bs using lcs.induct generalizing cs with
  | case1 bs => simp [List.sublist_nil.mp ha]
  | case2 a as => simp [List.sublist_nil.mp hb]
  | case3 a as bs ih =>
    rw [lcs_cons_same]
    cases cs with
    | nil => exact Nat.zero_le _
    | cons c cs =>
      -- dropping the heads leaves a common subsequence of the rests
      have h := ih ha.tail hb.tail
      rw [List.length_cons]
      exact Nat.succ_le_succ h
  | case4 a as b bs hne ih₁ ih₂ =>
    rw [lcs_cons_ne hne]
    -- the common subsequence cannot use both heads
    cases ha with
    | cons _ ha => exact (ih₁ ha hb).trans (le_max_left _ _)
    | cons_cons _ ha =>
      cases hb with
      | cons _ hb => exact (ih₂ (ha.cons_cons a) hb).trans (le_max_right _ _)
      | cons_cons _ hb => exact absurd rfl hne

theorem exists_length_eq_lcs (as bs : List α) :
    ∃ cs : List α, cs.Sublist as ∧ cs.Sublist bs ∧ cs.length = lcs as bs := by
  induction as, bs using lcs.induct with
  | case1 bs => exact ⟨[], List.nil_sublist _, List.nil_sublist _, (lcs_nil_left bs).symm⟩
  | case2 a as => exact ⟨[], List.nil_sublist _, List.nil_sublist _, (lcs_nil_right _).symm⟩
  | case3 as b bs ih =>
    obtain ⟨cs, ha, hb, hlen⟩ := ih
    exact ⟨b :: cs, ha.cons_cons b, hb.cons_cons b, by rw [lcs_cons_same, List.length_cons, hlen]⟩
  | case4 a as b bs hne ih₁ ih₂ =>
    rw [lcs_cons_ne hne]
    rcases max_choice (lcs as (b :: bs)) (lcs (a :: as) bs) with h | h
    · obtain ⟨cs, ha, hb, hlen⟩ := ih₁
      exact ⟨cs, ha.cons a, hb, hlen.trans h.symm⟩
    · obtain ⟨cs, ha, hb, hlen⟩ := ih₂
      exact ⟨cs, ha, hb.cons b, hlen.trans h.symm⟩

/-- **`lcs` is the greatest length of a common subsequence (proved).** -/
theorem lcs_isGreatest (as bs : List α) :
    IsGreatest {n | ∃ cs : List α, cs.Sublist as ∧ cs.Sublist bs ∧ cs.length = n} (lcs as bs) :=
  ⟨exists_length_eq_lcs as bs, fun _ ⟨_, ha, hb, hlen⟩ => hlen ▸ length_le_lcs ha hb⟩

theorem sames_le_lcs (s : List (Mark × α)) : (sames s).length ≤ lcs (olds s) (news s) :=
  length_le_lcs (sames_sublist_olds s) (sames_sublist_news s)

/-- **A script that keeps as many as can be kept changes as few as any (proved).** -/
theorem changes_le_of_sames {s t : List (Mark × α)} (hold : olds t = olds s) (hnew : news t = news s)
    (h : (sames s).length = lcs (olds s) (news s)) : changes s ≤ changes t := by
  have hs := changes_add_sames s
  have ht := changes_add_sames t
  have hle := sames_le_lcs t
  rw [hold, hnew] at ht hle
  omega

end Script
