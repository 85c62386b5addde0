import PveCompose.Doc

/-!
# Project names (`doc.rs`)

`isProjectName` is compose's own rule, `projectNameFrom` turns a hostname into a name.  The two are
written apart from each other in the source: the rule looks at characters, the maker maps each one
and then takes characters off the front until the first is fit.

* `removeLeading_eq` — **PROVED, the loop ends**: after at most as many rounds as there are
  characters, with what `dropWhile` leaves;
* `isProjectName_projectNameFrom`, `projectNameFrom_of_isProjectName` — **PROVED**: what is made
  meets the rule, and what meets the rule is left alone;
* `projectNameFrom_map_toLower` — **PROVED**: letter case is not seen.
-/

namespace PveCompose

/-- What may stand after the first character of a project name. -/
def isProjectChar (c : Char) : Bool := isLowerOrDigit c || c = '-' || c = '_'

/-- `is_project_name`: compose's own rule for a project name. -/
def isProjectName : Text → Bool
  | [] => false
  | c :: cs => isLowerOrDigit c && cs.all isProjectChar

/-- What `project_name_from` makes of one character. -/
def projectChar (c : Char) : Char :=
  if 'A' ≤ c ∧ c ≤ 'Z' then c.toLower
  else if isLowerOrDigit c ∨ c = '-' ∨ c = '_' then c else '-'

/-- `while out.starts_with(…) { out.remove(0); }`, for so many rounds. -/
def removeLeading : ℕ → Text → Option Text
  | 0, _ => none
  | rounds + 1, out =>
    if out.head?.any fun c => ! isLowerOrDigit c then removeLeading rounds out.tail else some out

/-! ### The loop -/

theorem removeLeading_eq (out : Text) :
    removeLeading (out.length + 1) out = some (out.dropWhile (! isLowerOrDigit ·)) := by
  induction out with
  | nil => rfl
  | cons c cs ih =>
    rw [List.length_cons, removeLeading, List.head?_cons, Option.any_some, List.dropWhile_cons]
    by_cases hc : isLowerOrDigit c = true
    · simp only [hc, Bool.not_true, Bool.false_eq_true, if_false]
    · simp only [Bool.not_eq_true] at hc
      simp only [hc, Bool.not_false, if_true]
      exact ih

theorem projectNameFrom_eq (hostname : Text) :
    projectNameFrom hostname
      = if (hostname.map projectChar).dropWhile (! isLowerOrDigit ·) = [] then "stack".toList
        else (hostname.map projectChar).dropWhile (! isLowerOrDigit ·) := rfl

/-! ### Characters -/

theorem upper_iff {c : Char} : ('A' ≤ c ∧ c ≤ 'Z') ↔ 65 ≤ c.toNat ∧ c.toNat ≤ 90 := by
  rw [Char.le_def, Char.le_def, UInt32.le_iff_toNat_le, UInt32.le_iff_toNat_le]
  exact Iff.rfl

theorem isLowerOrDigit_iff {c : Char} : isLowerOrDigit c = true ↔
    (97 ≤ c.toNat ∧ c.toNat ≤ 122) ∨ (48 ≤ c.toNat ∧ c.toNat ≤ 57) := by
  simp only [isLowerOrDigit, isDigit, Char.isDigit, Bool.or_eq_true, Bool.and_eq_true,
    decide_eq_true_eq, Char.le_def, UInt32.le_iff_toNat_le, ge_iff_le]
  exact Iff.rfl

theorem not_upper_of_isLowerOrDigit {c : Char} (h : isLowerOrDigit c = true) :
    ¬ ('A' ≤ c ∧ c ≤ 'Z') := by
  rw [isLowerOrDigit_iff] at h
  rw [upper_iff]
  omega

theorem toNat_toLower {c : Char} (h : 'A' ≤ c ∧ c ≤ 'Z') : c.toLower.toNat = c.toNat + 32 := by
  have hbound := (upper_iff.mp h).2
  rw [Char.toLower, dif_pos (show c.val ≥ 'A'.val ∧ c.val ≤ 'Z'.val from h)]
  show (c.val + 32).toNat = c.val.toNat + 32
  rw [UInt32.toNat_add]
  exact Nat.mod_eq_of_lt (by change c.toNat + 32 < 2 ^ 32; omega)

theorem toLower_of_not_upper {c : Char} (h : ¬ ('A' ≤ c ∧ c ≤ 'Z')) : c.toLower = c := by
  exact dif_neg h

theorem isLowerOrDigit_toLower {c : Char} (h : 'A' ≤ c ∧ c ≤ 'Z') :
    isLowerOrDigit c.toLower = true := by
  have hbound := upper_iff.mp h
  rw [isLowerOrDigit_iff, toNat_toLower h]
  omega

theorem isProjectChar_of_isLowerOrDigit {c : Char} (h : isLowerOrDigit c = true) :
    isProjectChar c = true := by
  rw [isProjectChar, h]
  rfl

/-- Every character of a name is one compose takes. -/
theorem isProjectChar_projectChar (c : Char) : isProjectChar (projectChar c) = true := by
  unfold projectChar
  split_ifs with hupper hkept
  · exact isProjectChar_of_isLowerOrDigit (isLowerOrDigit_toLower hupper)
  · rcases hkept with h | rfl | rfl
    · exact isProjectChar_of_isLowerOrDigit h
    · rfl
    · rfl
  · rfl

/-- A character compose takes is left alone. -/
theorem projectChar_of_isProjectChar {c : Char} (h : isProjectChar c = true) :
    projectChar c = c := by
  have hkept : isLowerOrDigit c ∨ c = '-' ∨ c = '_' := by
    simpa [isProjectChar, or_assoc] using h
  have hupper : ¬ ('A' ≤ c ∧ c ≤ 'Z') := by
    rcases hkept with h | rfl | rfl
    · exact not_upper_of_isLowerOrDigit h
    · decide
    · decide
  rw [projectChar, if_neg hupper, if_pos hkept]

theorem projectChar_toLower (c : Char) : projectChar c.toLower = projectChar c := by
  by_cases hupper : 'A' ≤ c ∧ c ≤ 'Z'
  · have hlower := isLowerOrDigit_toLower hupper
    rw [projectChar_of_isProjectChar (isProjectChar_of_isLowerOrDigit hlower), projectChar,
      if_pos hupper]
  · rw [toLower_of_not_upper hupper]

/-! ### Names -/

theorem isProjectName_of_dropWhile {out : Text} (hall : ∀ c ∈ out, isProjectChar c = true)
    (hne : out.dropWhile (! isLowerOrDigit ·) ≠ []) :
    isProjectName (out.dropWhile (! isLowerOrDigit ·)) = true := by
  have hhead := List.head_dropWhile_not (fun c => ! isLowerOrDigit c) hne
  have hkept : ∀ c ∈ out.dropWhile (! isLowerOrDigit ·), isProjectChar c = true :=
    fun c hc => hall c ((List.dropWhile_sublist _).mem hc)
  cases hdrop : out.dropWhile (! isLowerOrDigit ·) with
  | nil => exact absurd hdrop hne
  | cons c cs =>
    simp only [hdrop, List.head_cons, Bool.not_eq_false'] at hhead
    rw [hdrop] at hkept
    rw [isProjectName, hhead, Bool.true_and, List.all_eq_true]
    exact fun d hd => hkept d (List.mem_cons_of_mem c hd)

/-- **Every name is compose's (proved).** -/
theorem isProjectName_projectNameFrom (hostname : Text) :
    isProjectName (projectNameFrom hostname) = true := by
  rw [projectNameFrom_eq]
  split_ifs with hempty
  · decide
  · refine isProjectName_of_dropWhile (fun c hc => ?_) hempty
    obtain ⟨d, -, rfl⟩ := List.mem_map.mp hc
    exact isProjectChar_projectChar d

/-- **A name is left alone (proved).** -/
theorem projectNameFrom_of_isProjectName {p : Text} (h : isProjectName p = true) :
    projectNameFrom p = p := by
  cases p with
  | nil => cases h
  | cons c cs =>
    obtain ⟨hc, hcs⟩ := Bool.and_eq_true_iff.mp h
    have hmap : (c :: cs).map projectChar = c :: cs := by
      refine (List.map_congr_left fun d hd => ?_).trans (List.map_id _)
      rcases List.mem_cons.mp hd with rfl | hd
      · exact projectChar_of_isProjectChar (isProjectChar_of_isLowerOrDigit hc)
      · exact projectChar_of_isProjectChar (List.all_eq_true.mp hcs d hd)
    rw [projectNameFrom_eq, hmap, List.dropWhile_cons_of_neg (by simp [hc]), if_neg (by simp)]

/-- **Letter case is not seen (proved).** -/
theorem projectNameFrom_map_toLower (hostname : Text) :
    projectNameFrom (hostname.map Char.toLower) = projectNameFrom hostname := by
  have hmap : (hostname.map Char.toLower).map projectChar = hostname.map projectChar := by
    rw [List.map_map]
    exact List.map_congr_left fun c _ => projectChar_toLower c
  rw [projectNameFrom_eq, projectNameFrom_eq, hmap]

/-- **Project names are settled (proved)**: the loop ends, the name is compose's, a name is its own
name, and so is a name's, and a hostname in other letter case has the same one. -/
theorem projectNameFrom_settled (hostname other : Text) :
    (∃ rounds out, removeLeading rounds (hostname.map projectChar) = some out ∧
      projectNameFrom hostname = if out = [] then "stack".toList else out) ∧
    isProjectName (projectNameFrom hostname) = true ∧
    (isProjectName hostname = true → projectNameFrom hostname = hostname) ∧
    projectNameFrom (projectNameFrom hostname) = projectNameFrom hostname ∧
    (hostname.map Char.toLower = other.map Char.toLower →
      projectNameFrom hostname = projectNameFrom other) := by
  refine ⟨⟨_, _, removeLeading_eq _, projectNameFrom_eq hostname⟩,
    isProjectName_projectNameFrom hostname, projectNameFrom_of_isProjectName,
    projectNameFrom_of_isProjectName (isProjectName_projectNameFrom hostname), fun hcase => ?_⟩
  rw [← projectNameFrom_map_toLower hostname, hcase, projectNameFrom_map_toLower]

example : projectNameFrom "My Stack.local" = "my-stack-local".toList := by decide

end PveCompose
