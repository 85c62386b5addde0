import PveCompose.Create

/-!
# The newest template (`ops/template.rs`)

A template is named `<base>_<version>_<arch>.tar.zst`.  `newest_vztmpl` and `download_base` take, of
the names that match, the last one by text; the newest is the one whose version is the greatest when
its numbers are compared.

* `sortedLast_eq_some` — **PROVED**: sorting and taking the last gives the greatest;
* `name_le` — **PROVED**: names that match compare as their versions do, each with the `_` behind it;
* `newest_iff` — **PROVED**: what is taken is the newest exactly when one of the newest comes last in
  that order, in which the end of a version is above every digit, and a digit above `.` and `-`.
-/

namespace PveCompose

/-! ### The order of texts -/

section Lex

variable {α : Type*} [LinearOrder α]

theorem append_le_append_left {l v w : List α} (h : l ++ v ≤ l ++ w) : v ≤ w := by
  by_contra hlt
  exact absurd (List.append_left_lt (not_le.mp hlt)) (not_lt.mpr h)

/-- Two different texts that end at a mark compare where they differ, whatever is behind it. -/
theorem lt_of_marked {x : α} {v w r r' : List α} (hv : x ∉ v) (hw : x ∉ w) (hne : v ≠ w)
    (h : v ++ x :: r < w ++ x :: r') : v ++ [x] < w ++ [x] := by
  induction v generalizing w with
  | nil =>
    cases w with
    | nil => exact absurd rfl hne
    | cons b w =>
      rw [List.nil_append, List.cons_append, List.cons_lt_cons_iff] at h ⊢
      rcases h with h | ⟨rfl, -⟩
      · exact .inl h
      · exact absurd List.mem_cons_self hw
  | cons a v ih =>
    cases w with
    | nil =>
      rw [List.nil_append, List.cons_append, List.cons_lt_cons_iff] at h ⊢
      rcases h with h | ⟨rfl, -⟩
      · exact .inl h
      · exact absurd List.mem_cons_self hv
    | cons b w =>
      rw [List.cons_append, List.cons_append, List.cons_lt_cons_iff] at h ⊢
      rcases h with h | ⟨rfl, h⟩
      · exact .inl h
      · refine .inr ⟨rfl, ih (fun hx => hv (List.mem_cons_of_mem _ hx))
          (fun hx => hw (List.mem_cons_of_mem _ hx)) (fun hvw => hne (by rw [hvw])) h⟩

theorem le_of_marked {x : α} {v w r r' : List α} (hv : x ∉ v) (hw : x ∉ w)
    (h : v ++ x :: r ≤ w ++ x :: r') : v ++ [x] ≤ w ++ [x] := by
  by_cases hne : v = w
  · rw [hne]
  · have hlt : v ++ x :: r < w ++ x :: r' := lt_of_le_of_ne h fun heq => hne ?_
    · exact (lt_of_marked hv hw hne hlt).le
    · have hcut := congrArg (Words.splitOnce x) heq
      rw [Words.splitOnce_append _ hv, Words.splitOnce_append _ hw] at hcut
      exact congrArg Prod.fst (Option.some.inj hcut)

end Lex

/-- **Sorted, the last is the greatest (proved).** -/
theorem sortedLast_eq_some {names : List Text} {n : Text} (h : sortedLast names = some n) :
    n ∈ names ∧ ∀ m ∈ names, m ≤ n := by
  obtain ⟨init, hinit⟩ := List.getLast?_eq_some_iff.mp h
  have hsorted := List.pairwise_insertionSort (· ≤ ·) names
  have hmem : ∀ m, m ∈ init ++ [n] ↔ m ∈ names := by
    intro m
    rw [← hinit]
    exact List.mem_insertionSort _
  rw [hinit, List.pairwise_append] at hsorted
  refine ⟨(hmem n).mp (by simp), fun m hm => ?_⟩
  rcases List.mem_append.mp ((hmem m).mpr hm) with hm | hm
  · exact hsorted.2.2 m hm n (by simp)
  · rw [List.mem_singleton.mp hm]

theorem sortedLast_eq_none {names : List Text} (h : sortedLast names = none) : names = [] := by
  have hnil := List.getLast?_eq_none_iff.mp h
  rw [← List.length_eq_zero_iff, List.length_insertionSort] at hnil
  exact List.length_eq_zero_iff.mp hnil

/-! ### TemplateName names -/

def isSeparator (c : Char) : Bool := c = '.' || c = '-'

/-- The numbers of a version. -/
def numbers (version : Text) : List ℕ := (version.splitOnP isSeparator).map parseNat

/-- The fields of a template's name: the base holds no `_`, and the version is numbers with dots and
dashes between them. -/
structure TemplateName where
  base : Text
  version : Text
  arch : Text
  base_field : '_' ∉ base
  version_field : ∀ c ∈ version, isDigit c = true ∨ isSeparator c = true
  version_numbers : ∀ n ∈ version.splitOnP isSeparator, n ≠ []
  no_slash : '/' ∉ base ∧ '/' ∉ arch

namespace TemplateName

def name (t : TemplateName) : Text := t.base ++ '_' :: (t.version ++ '_' :: (t.arch ++ ".tar.zst"))

/-- The template on a storage. -/
def volid (storage : Text) (t : TemplateName) : Text := storage ++ VZTMPL ++ t.name

/-- A name that `newest_vztmpl` and `download_base` look at. -/
def Matches (base arch : Text) (t : TemplateName) : Prop :=
  ((base ++ "_").isPrefixOf t.name && forArch t.name arch) = true

instance (base arch : Text) : DecidablePred (Matches base arch) := fun _ =>
  inferInstanceAs (Decidable (_ = true))

variable {base arch : Text} {t u : TemplateName}

theorem version_not_mem {c : Char} (hd : isDigit c = false) (hs : isSeparator c = false) :
    c ∉ t.version := by
  intro hc
  rcases t.version_field c hc with h | h
  · rw [hd] at h
    cases h
  · rw [hs] at h
    cases h

theorem underscore_not_mem_version : '_' ∉ t.version := version_not_mem (by decide) (by decide)

theorem slash_not_mem_name : '/' ∉ t.name := by
  have hversion : '/' ∉ t.version := version_not_mem (by decide) (by decide)
  have hsuffix : '/' ∉ ".tar.zst".toList := by decide
  simp only [name, List.mem_append, List.mem_cons]
  have hne : ('/' : Char) ≠ '_' := by decide
  have hslash := t.no_slash
  tauto

/-- The file name of a template on a storage is its name. -/
theorem fileName_volid (storage : Text) (t : TemplateName) : fileName (t.volid storage) = t.name := by
  have hslash : VZTMPL = ":vztmpl".toList ++ ['/'] := rfl
  have hname : ∀ c ∈ t.name.reverse, (decide (c ≠ '/')) = true := by
    intro c hc
    refine decide_eq_true fun h => ?_
    rw [h, List.mem_reverse] at hc
    exact slash_not_mem_name hc
  rw [fileName, volid, hslash, List.reverse_append, List.takeWhile_append_of_pos hname]
  simp

theorem takeWhile_marked {b r : Text} (hb : '_' ∉ b) : (b ++ '_' :: r).takeWhile (· ≠ '_') = b := by
  have hall : ∀ c ∈ b, decide (c ≠ '_') = true := fun c hc => decide_eq_true fun h => hb (h ▸ hc)
  rw [List.takeWhile_append_of_pos hall]
  simp

/-- The base of a name that matches is what stands in front of the first `_`. -/
theorem base_of_matches (h : t.Matches base arch) :
    t.base = (base ++ ['_']).takeWhile (· ≠ '_') := by
  obtain ⟨rest, hrest⟩ := List.isPrefixOf_iff_prefix.mp (Bool.and_eq_true_iff.mp h).1
  have htake : t.name.takeWhile (· ≠ '_') = (base ++ ['_']).takeWhile (· ≠ '_') := by
    cases hsplit : Words.splitOnce '_' (base ++ ['_']) with
    | none => exact absurd (Words.splitOnce_eq_none_iff.mp hsplit) (by simp)
    | some p =>
      obtain ⟨k, v⟩ := p
      obtain ⟨hk, hfree⟩ := Words.splitOnce_eq_some hsplit
      have hname : base ++ ['_'] ++ rest = t.name := hrest
      rw [← hname, hk, List.append_assoc, List.cons_append, takeWhile_marked hfree,
        takeWhile_marked hfree]
  rw [← htake, name, takeWhile_marked t.base_field]

theorem base_eq (ht : t.Matches base arch) (hu : u.Matches base arch) : t.base = u.base := by
  rw [base_of_matches ht, base_of_matches hu]

/-- **Names that match compare as their versions do (proved)**, each with the `_` behind it. -/
theorem version_le (ht : t.Matches base arch) (hu : u.Matches base arch) (h : u.name ≤ t.name) :
    u.version ++ ['_'] ≤ t.version ++ ['_'] := by
  rw [name, name, base_eq ht hu] at h
  have hrest := append_le_append_left (v := ['_'] ++ _) (w := ['_'] ++ _) h
  exact le_of_marked underscore_not_mem_version underscore_not_mem_version (append_le_append_left hrest)

end TemplateName

/-! ### What is taken -/

variable {base arch : Text} {ts : List TemplateName}

/-- What is taken is a name that matches, of a version no other one exceeds; and it is none only if
none matches. -/
def IsNewest (base arch : Text) (ts : List TemplateName) (text : TemplateName → Text) (r : Option Text) :
    Prop :=
  (∀ v, r = some v → ∃ t ∈ ts, t.Matches base arch ∧ v = text t ∧
      ∀ u ∈ ts, u.Matches base arch → numbers u.version ≤ numbers t.version) ∧
    (r = none → ∀ t ∈ ts, ¬ t.Matches base arch)

/-- One of the newest of the names that match comes last by the text of its version. -/
def NewestLast (base arch : Text) (ts : List TemplateName) : Prop :=
  ∃ t ∈ ts, t.Matches base arch ∧ ∀ u ∈ ts, u.Matches base arch →
    numbers u.version ≤ numbers t.version ∧ u.version ++ ['_'] ≤ t.version ++ ['_']

/-- **The last of the names that match (proved)**, for any text in which a name compares as by itself. -/
theorem isNewest_iff {text : TemplateName → Text} {names : List Text} {test : Text → Bool}
    (htest : ∀ t ∈ ts, test (text t) = decide (t.Matches base arch))
    (hnames : names = ts.map text) (hle : ∀ t u : TemplateName, text u ≤ text t → u.name ≤ t.name) :
    IsNewest base arch ts text (sortedLast (names.filter test)) ↔
      (∀ t ∈ ts, ¬ t.Matches base arch) ∨ NewestLast base arch ts := by
  have hmem : ∀ v, v ∈ names.filter test ↔ ∃ t ∈ ts, t.Matches base arch ∧ v = text t := by
    intro v
    rw [List.mem_filter, hnames, List.mem_map]
    constructor
    · rintro ⟨⟨t, ht, rfl⟩, h⟩
      rw [htest t ht, decide_eq_true_eq] at h
      exact ⟨t, ht, h, rfl⟩
    · rintro ⟨t, ht, h, rfl⟩
      exact ⟨⟨t, ht, rfl⟩, by rw [htest t ht, decide_eq_true h]⟩
  cases hr : sortedLast (names.filter test) with
  | none =>
    have hnone : ∀ t ∈ ts, ¬ t.Matches base arch := by
      intro t ht h
      have hin := (hmem (text t)).mpr ⟨t, ht, h, rfl⟩
      rw [sortedLast_eq_none hr] at hin
      exact absurd hin List.not_mem_nil
    exact iff_of_true ⟨nofun, fun _ => hnone⟩ (.inl hnone)
  | some v =>
    obtain ⟨hv, hlast⟩ := sortedLast_eq_some hr
    obtain ⟨t, ht, hmatch, rfl⟩ := (hmem v).mp hv
    -- the version taken comes last by text
    have htext : ∀ u ∈ ts, u.Matches base arch → u.version ++ ['_'] ≤ t.version ++ ['_'] :=
      fun u hu hum => TemplateName.version_le hmatch hum
        (hle t u (hlast _ ((hmem _).mpr ⟨u, hu, hum, rfl⟩)))
    constructor
    · intro h
      obtain ⟨t', ht', hmatch', htt', hnewest⟩ := h.1 _ rfl
      refine .inr ⟨t', ht', hmatch', fun u hu hum => ⟨hnewest u hu hum, ?_⟩⟩
      exact (htext u hu hum).trans (TemplateName.version_le hmatch' hmatch (hle t' t htt'.le))
    · rintro (hnone | ⟨t', ht', hmatch', hall⟩)
      · exact absurd hmatch (hnone t ht)
      · have hsame : t'.version = t.version := List.append_cancel_right
          (le_antisymm (htext t' ht' hmatch') (hall t ht hmatch).2)
        refine ⟨fun _ h => ⟨t, ht, hmatch, (Option.some.inj h).symm, fun u hu hum => ?_⟩, nofun⟩
        rw [← hsame]
        exact (hall u hu hum).1

/-- **The newest template (proved).** -/
theorem newest_iff (base arch : Text) (ts : List TemplateName) :
    (∀ storage rows, rows.filterMap id = ts.map (TemplateName.volid storage) →
      (IsNewest base arch ts (TemplateName.volid storage) (newestVolid rows (base ++ "_") arch) ↔
        (∀ t ∈ ts, ¬ t.Matches base arch) ∨ NewestLast base arch ts)) ∧
    ∀ stdout : Text, (stdout.splitOn '\n').filterMap secondWord = ts.map TemplateName.name →
      (IsNewest base arch ts TemplateName.name (newestAvailable stdout base arch) ↔
        (∀ t ∈ ts, ¬ t.Matches base arch) ∨ NewestLast base arch ts) := by
  constructor
  · intro storage rows hrows
    refine isNewest_iff (fun t _ => ?_) hrows fun t u h => ?_
    · rw [TemplateName.fileName_volid]
      exact (Bool.decide_coe _).symm
    · exact append_le_append_left h
  · intro stdout hnames
    exact isNewest_iff (fun t _ => (Bool.decide_coe _).symm) hnames fun _ _ h => h

/-! ### What the fields say -/

/-- A mark in a text that has one at a known place is there, or behind it. -/
theorem mark_cases {x : Char} {b pre y z : Text} (hb : x ∉ b) (h : pre ++ x :: y = b ++ x :: z) :
    (pre = b ∧ y = z) ∨ ∃ p, pre = b ++ x :: p ∧ p ++ x :: y = z := by
  cases hsplit : Words.splitOnce x pre with
  | none =>
    have hcut := congrArg (Words.splitOnce x) h
    rw [Words.splitOnce_append _ (Words.splitOnce_eq_none_iff.mp hsplit), Words.splitOnce_append _ hb] at hcut
    exact .inl (Prod.mk.inj (Option.some.inj hcut))
  | some kv =>
    obtain ⟨k, v⟩ := kv
    obtain ⟨rfl, hk⟩ := Words.splitOnce_eq_some hsplit
    rw [List.append_assoc, List.cons_append] at h
    have hcut := congrArg (Words.splitOnce x) h
    rw [Words.splitOnce_append _ hk, Words.splitOnce_append _ hb] at hcut
    obtain ⟨rfl, hz⟩ := Prod.mk.inj (Option.some.inj hcut)
    exact .inr ⟨v, rfl, hz⟩

/-- A name matches when its fields do, for a base without `_` and an architecture with a letter in it. -/
theorem matches_iff {t : TemplateName} (hbase : '_' ∉ base) (harch : '_' ∉ arch ∧ '.' ∉ arch)
    (hletter : ∃ c ∈ arch, isDigit c = false ∧ isSeparator c = false)
    (htarch : '_' ∉ t.arch ∧ '.' ∉ t.arch) :
    t.Matches base arch ↔ t.base = base ∧ t.arch = arch := by
  constructor
  · intro h
    refine ⟨by rw [TemplateName.base_of_matches h, TemplateName.takeWhile_marked hbase], ?_⟩
    obtain ⟨pre, suf, hname⟩ : '_' :: arch ++ ['.'] <:+: t.name :=
      of_decide_eq_true (Bool.and_eq_true_iff.mp h).2
    have hplace : pre ++ '_' :: (arch ++ '.' :: suf) = t.base ++ '_' :: (t.version ++ '_'
        :: (t.arch ++ '.' :: "tar.zst".toList)) := by
      simpa [TemplateName.name] using hname
    rcases mark_cases t.base_field hplace with ⟨-, hversion⟩ | ⟨p, -, hrest⟩
    · -- the version holds no letter
      obtain ⟨c, hc, hdigit, hsep⟩ := hletter
      refine absurd ?_ (TemplateName.version_not_mem (t := t) hdigit hsep)
      rcases List.append_eq_append_iff.mp hversion with ⟨l, hl, -⟩ | ⟨l, hl, hl'⟩
      · rw [hl]
        exact List.mem_append_left _ hc
      · cases l with
        | nil =>
          rw [List.append_nil] at hl
          rw [← hl]
          exact hc
        | cons d l =>
          obtain rfl : '_' = d := (List.cons.inj hl').1
          exact absurd (by rw [hl]; simp) harch.1
    · rcases mark_cases TemplateName.underscore_not_mem_version hrest with ⟨-, hsame⟩ | ⟨q, -, hlast⟩
      · have hcut := congrArg (Words.splitOnce '.') hsame
        rw [Words.splitOnce_append _ harch.2, Words.splitOnce_append _ htarch.2] at hcut
        exact (congrArg Prod.fst (Option.some.inj hcut)).symm
      · have hmem : '_' ∈ t.arch ++ '.' :: "tar.zst".toList := by
          rw [← hlast]
          simp
        rcases List.mem_append.mp hmem with h | h
        · exact absurd h htarch.1
        · exact absurd h (by decide)
  · rintro ⟨rfl, rfl⟩
    refine Bool.and_eq_true_iff.mpr ⟨?_, decide_eq_true ?_⟩
    · rw [List.isPrefixOf_iff_prefix, TemplateName.name]
      exact ⟨_, List.append_assoc ..⟩
    · refine ⟨t.base ++ '_' :: t.version, "tar.zst", ?_⟩
      simp [TemplateName.name]

/-! ### Numbers of different lengths -/

/-- `debian-13-standard_<version>_amd64.tar.zst`. -/
def debian (version : Text) (h : (version.all fun c => isDigit c || isSeparator c) = true)
    (h' : ((version.splitOnP isSeparator).all fun n => !n.isEmpty) = true) : TemplateName where
  base := "debian-13-standard"
  version := version
  arch := "amd64"
  base_field := by decide
  version_field := fun c hc => Bool.or_eq_true_iff.mp (List.all_eq_true.mp h c hc)
  version_numbers := fun n hn => by simpa using List.all_eq_true.mp h' n hn
  no_slash := by decide

def debian139 : TemplateName := debian "13.9-1" rfl (by decide)

def debian1310 : TemplateName := debian "13.10-1" rfl (by decide)

def debian136 : TemplateName := debian "13.6-1" rfl (by decide)

def debian137 : TemplateName := debian "13.7-1" rfl (by decide)

/-- `pveam available` with both. -/
def available : Text :=
  "system          debian-13-standard_13.7-1_amd64.tar.zst
".toList
    ++ "system          debian-13-standard_13.6-1_amd64.tar.zst
"

/-- Of two versions with numbers of the same lengths the newer one is taken, whichever comes first, on
the storage and of what is available. -/
theorem newest_137 :
    (IsNewest "debian-13-standard" "amd64" [debian137, debian136] (TemplateName.volid "local")
        (newestVolid [some (debian137.volid "local"), none, some (debian136.volid "local")]
          "debian-13-standard_" "amd64") ∧
      IsNewest "debian-13-standard" "amd64" [debian137, debian136] TemplateName.name
        (newestAvailable available "debian-13-standard" "amd64")) ∧
    newestAvailable available "debian-13-standard" "amd64" = some debian137.name := by
  have hlast : NewestLast "debian-13-standard" "amd64" [debian137, debian136] := by
    refine ⟨debian137, by simp, by decide, fun u hu _ => ?_⟩
    rcases List.mem_cons.mp hu with rfl | hu
    · exact ⟨le_rfl, le_rfl⟩
    · rw [List.mem_singleton.mp hu]
      decide
  have hiff := newest_iff "debian-13-standard" "amd64" [debian137, debian136]
  exact ⟨⟨(hiff.1 "local" [some (debian137.volid "local"), none, some (debian136.volid "local")]
    rfl).mpr (.inr hlast), (hiff.2 available (by decide)).mpr (.inr hlast)⟩, by decide⟩

/-- **13.9 comes after 13.10 as text (proved)**, and is what is taken. -/
theorem newest_is_older : ¬ IsNewest "debian-13-standard" "amd64" [debian1310, debian139]
    (TemplateName.volid "local") (newestVolid [some (debian1310.volid "local"),
      some (debian139.volid "local")] "debian-13-standard_" "amd64") := by
  have htaken : newestVolid [some (debian1310.volid "local"), some (debian139.volid "local")]
      "debian-13-standard_" "amd64" = some (debian139.volid "local") := by decide
  intro h
  obtain ⟨t, ht, -, htext, hall⟩ := h.1 _ htaken
  have hle := hall debian1310 (by simp) (by decide)
  rcases List.mem_cons.mp ht with rfl | ht
  · exact absurd htext (by decide)
  · rw [List.mem_singleton.mp ht] at hle
    exact absurd hle (by decide)

end PveCompose
