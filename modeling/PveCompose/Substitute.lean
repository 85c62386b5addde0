import PveCompose.Lib.Replace
import PveCompose.Spec

/-!
# Substitution, against a single scan and against compose's own reading (`spec.rs`)

`substitute` replaces the ten tokens `${PVE_*}` and `$PVE_*` one after another, each in the text the
ones before it wrote.

* `substitute_eq_once_iff` — **PROVED**: it is the replacement of all tokens in one scan exactly when
  no token is formed by a value that was written: no token comes to stand at a dollar of the text
  where it did not, once the tokens before it in the map's order are replaced;
* `composed` — the text read as compose reads it: `$$` is an escaped dollar, `${NAME}` and `$NAME`
  with the longest name are references;
* `substitute_eq_composed_iff` — **PROVED**: it replaces exactly compose's references to the five
  variables when, besides, every token in the text is such a reference.

Hypotheses, named: no value of the variables holds a dollar.
-/

namespace PveCompose

open Replacing (Rule Forms withMarks closeUp withMarks_head withMarks_cons withMarks_append
  closeUp_some closeUp_none)

/-- `${NAME}`. -/
def braced (kv : Text × Text) : Rule Char := ⟨"$\x7b" ++ kv.1 ++ "\x7d", kv.2⟩

/-- `$NAME`. -/
def unbraced (kv : Text × Text) : Rule Char := ⟨"$" ++ kv.1, kv.2⟩

/-- The tokens in the order `substitute` replaces them. -/
def tokens (vars : List (Text × Text)) : List (Rule Char) :=
  vars.flatMap fun kv => [braced kv, unbraced kv]

/-! ### The replacements are the tokens in turn -/

theorem replaceFrom_eq_onceFrom (pat new : Text) (k : ℕ) (s : Text) :
    replaceFrom pat new k s = Replacing.onceFrom [⟨pat, new⟩] k s := by
  induction s generalizing k with
  | nil => cases k <;> rfl
  | cons c s ih =>
    cases k with
    | succ k => exact ih k
    | zero =>
      rw [replaceFrom, Replacing.onceFrom]
      by_cases h : pat.isPrefixOf (c :: s) = true
      · have hstand : Replacing.standing [⟨pat, new⟩] (c :: s) = some ⟨pat, new⟩ :=
          List.find?_cons_of_pos h
        rw [if_pos h, hstand, ih]
      · have hstand : Replacing.standing [⟨pat, new⟩] (c :: s) = none := List.find?_cons_of_neg h
        rw [if_neg h, hstand, ih]

theorem replace_eq_once (s pat new : Text) :
    replace s pat new = Replacing.once [⟨pat, new⟩] s := replaceFrom_eq_onceFrom pat new 0 s

theorem oneByOne_tokens (vars : List (Text × Text)) (s : Text) :
    Replacing.oneByOne (tokens vars) s = vars.foldl (fun out kv =>
      replace (replace out ("$\x7b" ++ kv.1 ++ "\x7d") kv.2) ("$" ++ kv.1) kv.2) s := by
  induction vars generalizing s with
  | nil => rfl
  | cons kv vars ih =>
    rw [List.foldl_cons, ← ih, replace_eq_once, replace_eq_once]
    rfl

theorem mem_tokens {vars : List (Text × Text)} {r : Rule Char} :
    r ∈ tokens vars ↔ ∃ kv ∈ vars, r = braced kv ∨ r = unbraced kv := by
  simp only [tokens, List.mem_flatMap, List.mem_cons, List.not_mem_nil, or_false]

/-- The words of the ten tokens. -/
theorem words_tokens (vars : Vars) : (tokens vars.map).map Rule.word
    = ["$\x7bPVE_GID\x7d", "$PVE_GID", "$\x7bPVE_NAME\x7d", "$PVE_NAME", "$\x7bPVE_STACK\x7d",
      "$PVE_STACK", "$\x7bPVE_UID\x7d", "$PVE_UID", "$\x7bPVE_VMID\x7d", "$PVE_VMID"].map
        String.toList := rfl

theorem apart_tokens (vars : Vars) : Replacing.Apart (tokens vars.map) := by
  have hwords : ((tokens vars.map).map Rule.word).Pairwise
      fun w w' => ¬ w <+: w' ∧ ¬ w' <+: w := by
    rw [words_tokens]
    decide
  exact List.pairwise_map.mp hwords

theorem marked_tokens {vars : Vars} (hfree : ∀ kv ∈ vars.map, '$' ∉ kv.2) :
    ∀ r ∈ tokens vars.map, Replacing.Marked '$' r := by
  intro r hr
  have hword : ∃ body, r.word = '$' :: body ∧ '$' ∉ body := by
    have hmem : r.word ∈ (tokens vars.map).map Rule.word := List.mem_map_of_mem hr
    have hwords : ∀ w ∈ (tokens vars.map).map Rule.word, w.head? = some '$' ∧ '$' ∉ w.tail := by
      rw [words_tokens]
      decide
    obtain ⟨hhead, htail⟩ := hwords _ hmem
    obtain ⟨body, hbody⟩ := List.head?_eq_some_iff.mp hhead
    rw [hbody] at htail
    exact ⟨body, hbody, htail⟩
  obtain ⟨kv, hkv, rfl | rfl⟩ := mem_tokens.mp hr
  · exact ⟨hword, hfree kv hkv⟩
  · exact ⟨hword, hfree kv hkv⟩

/-- Nothing stands in a text that holds no token's beginning. -/
theorem oneByOne_of_absent {vars : Vars} {s : Text} (hbrace : ¬ "$\x7bPVE_".toList <:+: s)
    (hplain : ¬ "$PVE_".toList <:+: s) : Replacing.oneByOne (tokens vars.map) s = s := by
  have habsent : ∀ r ∈ tokens vars.map, ¬ r.word <:+: s := by
    intro r hr hin
    have hmem : r.word ∈ (tokens vars.map).map Rule.word := List.mem_map_of_mem hr
    have hwords : ∀ w ∈ (tokens vars.map).map Rule.word,
        "$\x7bPVE_".toList <+: w ∨ "$PVE_".toList <+: w := by
      rw [words_tokens]
      decide
    rcases hwords _ hmem with h | h
    · exact hbrace (h.isInfix.trans hin)
    · exact hplain (h.isInfix.trans hin)
  have hkeep : ∀ rules : List (Rule Char), (∀ r ∈ rules, ¬ r.word <:+: s) →
      Replacing.oneByOne rules s = s := by
    intro rules hrules
    induction rules with
    | nil => rfl
    | cons r rules ih =>
      obtain ⟨hr, hrest⟩ := List.forall_mem_cons.mp hrules
      rw [Replacing.oneByOne_cons, Replacing.once_of_absent (List.forall_mem_singleton.mpr hr)]
      exact ih hrest
  exact hkeep _ habsent

theorem substitute_eq_oneByOne (vars : Vars) (s : Text) :
    substitute s vars.map = Replacing.oneByOne (tokens vars.map) s := by
  unfold substitute
  split_ifs with h
  · exact (oneByOne_of_absent h.1 h.2).symm
  · exact (oneByOne_tokens vars.map s).symm

/-! ### One scan -/

/-- No token is formed: where one stands once the tokens before it are replaced, it stood before. -/
def NoneFormed (vars : List (Text × Text)) (s : Text) : Prop :=
  ∀ done r later, tokens vars = done ++ r :: later → ¬ Forms done r s

theorem noneFormed_iff {vars : Vars} (hfree : ∀ kv ∈ vars.map, '$' ∉ kv.2) (s : Text) :
    NoneFormed vars.map s ↔
      Replacing.oneByOne (tokens vars.map) s = Replacing.once (tokens vars.map) s :=
  (Replacing.oneByOne_eq_once_iff (marked_tokens hfree) (apart_tokens vars) s).symm

/-- **Substitution is one scan, exactly when no token is formed (proved).** -/
theorem substitute_eq_once_iff {vars : Vars} (hfree : ∀ kv ∈ vars.map, '$' ∉ kv.2) (s : Text) :
    substitute s vars.map = Replacing.once (tokens vars.map) s ↔ NoneFormed vars.map s := by
  rw [substitute_eq_oneByOne]
  exact (noneFormed_iff hfree s).symm

/-- In one scan the order of the variables does not matter. -/
theorem once_of_order {vars : Vars} {rules : List (Rule Char)} (h : (tokens vars.map).Perm rules)
    (s : Text) : Replacing.once rules s = Replacing.once (tokens vars.map) s :=
  (Replacing.once_perm (apart_tokens vars) h s).symm

/-- A hostname that completes a token together with the text around it. -/
def uidVars : Vars := { vmid := 105, uid := "1000", gid := "1000", name := "UID", project := "uid" }

theorem uidVars_free : ∀ kv ∈ uidVars.map, '$' ∉ kv.2 := by decide

theorem noneFormed_srv : NoneFormed uidVars.map "/srv/${PVE_NAME}" :=
  (substitute_eq_once_iff uidVars_free _).mp (by decide)

/-- **`$PVE_$PVE_NAME` on a guest called `UID`**: the name written completes `$PVE_UID`, which is
replaced in turn. -/
theorem substitute_ne_once : ∃ vars : Vars, (∀ kv ∈ vars.map, '$' ∉ kv.2) ∧
    substitute "$PVE_$PVE_NAME" vars.map = "1000".toList ∧
      Replacing.once (tokens vars.map) "$PVE_$PVE_NAME" = "$PVE_UID".toList :=
  ⟨uidVars, uidVars_free, by decide, by decide⟩

/-! ### Compose's reading -/

def isVarChar (c : Char) : Bool := c.isAlphanum || c = '_'

/-- The longest name at the start of a text. -/
def nameOf (s : Text) : Text := s.takeWhile isVarChar

/-- What the text after a dollar refers to when it begins with `{NAME}` or `NAME`: the name, and the
length of it all. -/
def referenced : Text → Option (Text × ℕ)
  | '{' :: s =>
    if (s.drop (nameOf s).length).head? = some '}' then some (nameOf s, (nameOf s).length + 2)
    else none
  | s => some (nameOf s, (nameOf s).length)

/-- The value of the reference after a dollar, and its length, when it is one of `vars`. -/
def valueAt (vars : List (Text × Text)) (s : Text) : Option (Text × ℕ) :=
  (referenced s).bind fun (name, n) => (vars.find? fun kv => kv.1 = name).map fun kv => (kv.2, n)

/-- The text with the references to `vars` replaced, read from the left; the counter skips what is
left of a reference. What follows the name of a reference to another variable is read on: a default
may hold references of its own. -/
def composedFrom (vars : List (Text × Text)) : ℕ → Text → Text
  | _, [] => []
  | k + 1, _ :: s => composedFrom vars k s
  -- an escaped dollar
  | 0, '$' :: '$' :: s => '$' :: '$' :: composedFrom vars 0 s
  | 0, '$' :: s =>
    match valueAt vars s with
    | some (v, n) => v ++ composedFrom vars n s
    | none => '$' :: composedFrom vars 0 s
  | 0, c :: s => c :: composedFrom vars 0 s

def composed (vars : List (Text × Text)) (s : Text) : Text := composedFrom vars 0 s

/-- The dollars a text ends in. -/
def dollars (s : Text) : ℕ := (s.reverse.takeWhile (· = '$')).length

/-- Every token of the text is a reference: no dollar of one is escaped, and no name goes on. -/
structure Refers (vars : List (Text × Text)) (s : Text) : Prop where
  unescaped : ∀ r ∈ tokens vars, ∀ before after, s = before ++ r.word ++ after → Even (dollars before)
  ended : ∀ kv ∈ vars, ∀ before after, s = before ++ (unbraced kv).word ++ after →
    ∀ c ∈ after.head?, isVarChar c = false

/-! ### Compose's reading, piece by piece -/

section Composed

variable {vars : List (Text × Text)}

theorem composedFrom_eq_drop (k : ℕ) (s : Text) : composedFrom vars k s = composed vars (s.drop k) := by
  induction k generalizing s with
  | zero => rfl
  | succ k ih =>
    cases s with
    | nil => rfl
    | cons c s => exact ih s

theorem composed_append_free {h : Text} (hfree : '$' ∉ h) (s : Text) :
    composed vars (h ++ s) = h ++ composed vars s := by
  induction h with
  | nil => rfl
  | cons c h ih =>
    rw [List.mem_cons, not_or] at hfree
    have hc : composed vars (c :: (h ++ s)) = c :: composed vars (h ++ s) := by
      unfold composed
      rw [composedFrom]
      · exact fun _ h _ => hfree.1 h.symm
      · exact fun h => hfree.1 h.symm
    rw [List.cons_append, hc, ih hfree.2]
    rfl

theorem composed_escaped (s : Text) :
    composed vars ('$' :: '$' :: s) = '$' :: '$' :: composed vars s := rfl

theorem composed_some {s v : Text} {n : ℕ} (hs : s.head? ≠ some '$')
    (h : valueAt vars s = some (v, n)) :
    composed vars ('$' :: s) = v ++ composed vars (s.drop n) := by
  rw [← composedFrom_eq_drop, composed, composedFrom, h]
  rintro s' rfl
  exact hs rfl

theorem composed_none {s : Text} (hs : s.head? ≠ some '$') (h : valueAt vars s = none) :
    composed vars ('$' :: s) = '$' :: composed vars s := by
  rw [composed, composedFrom, h]
  · rfl
  · rintro s' rfl
    exact hs rfl

/-- A name ends where the next dollar stands. -/
theorem nameOf_append {p t : Text} (ht : t = [] ∨ t.head? = some '$') :
    nameOf (p ++ t) = nameOf p := by
  induction p with
  | nil =>
    rcases ht with rfl | ht
    · rfl
    · obtain ⟨u, rfl⟩ := List.head?_eq_some_iff.mp ht
      rfl
  | cons c p ih =>
    unfold nameOf at ih ⊢
    rw [List.cons_append, List.takeWhile_cons, List.takeWhile_cons, ih]

/-- A name ends at the first character that is none of a name. -/
theorem nameOf_of_append {k t : Text} (hk : k.all isVarChar = true)
    (ht : ∀ c ∈ t.head?, isVarChar c = false) : nameOf (k ++ t) = k := by
  rw [nameOf, List.takeWhile_append_of_pos (List.all_eq_true.mp hk)]
  cases t with
  | nil => rw [List.takeWhile_nil, List.append_nil]
  | cons c t =>
    have hc : ¬ isVarChar c = true := by rw [ht c rfl]; exact Bool.false_ne_true
    rw [List.takeWhile_cons_of_neg hc, List.append_nil]

theorem nameOf_append_drop (s : Text) : nameOf s ++ s.drop (nameOf s).length = s :=
  List.prefix_iff_eq_append.mp (List.takeWhile_prefix isVarChar)

theorem length_nameOf_le (s : Text) : (nameOf s).length ≤ s.length :=
  (List.takeWhile_prefix isVarChar).length_le

theorem referenced_plain {s : Text} (hs : s.head? ≠ some '{') :
    referenced s = some (nameOf s, (nameOf s).length) := by
  unfold referenced
  split
  · exact absurd rfl hs
  · rfl

/-- A name does not begin with a brace. -/
theorem head_name {k : Text} (hk : k ≠ [] ∧ k.all isVarChar = true) (t : Text) :
    (k ++ t).head? ≠ some '{' := by
  obtain ⟨c, u, rfl⟩ := List.exists_cons_of_ne_nil hk.1
  intro h
  obtain rfl : c = '{' := Option.some.inj h
  exact absurd hk.2 Bool.false_ne_true

theorem referenced_append {p t : Text} (ht : t = [] ∨ t.head? = some '$') :
    referenced (p ++ t) = referenced p := by
  cases p with
  | nil =>
    have hhead : t.head? ≠ some '{' := by
      rcases ht with rfl | ht
      · exact nofun
      · rw [ht]
        decide
    have hname : nameOf t = nameOf [] := nameOf_append (p := []) ht
    have hempty : ([] : Text).head? ≠ some '{' := nofun
    rw [List.nil_append, referenced_plain hhead, referenced_plain hempty, hname]
  | cons c p =>
    by_cases hc : c = '{'
    · subst hc
      have hdrop : ((p ++ t).drop (nameOf p).length).head? = some '}'
          ↔ (p.drop (nameOf p).length).head? = some '}' := by
        rw [List.drop_append_of_le_length (length_nameOf_le p)]
        cases p.drop (nameOf p).length with
        | cons d q => rfl
        | nil =>
          rcases ht with rfl | ht
          · rfl
          · rw [List.nil_append, ht]
            decide
      show (if ((p ++ t).drop (nameOf (p ++ t)).length).head? = some '}' then
        some (nameOf (p ++ t), (nameOf (p ++ t)).length + 2) else none) = _
      rw [nameOf_append ht]
      simp only [hdrop]
      rfl
    · have hhead : ∀ s : Text, (c :: s).head? ≠ some '{' := fun s h => hc (Option.some.inj h)
      rw [referenced_plain (hhead p), ← nameOf_append ht]
      exact referenced_plain (hhead (p ++ t))

/-- A reference is `{NAME}` or `NAME`. -/
theorem referenced_eq_some {p name : Text} {n : ℕ} (h : referenced p = some (name, n)) :
    (∃ rest, p = '{' :: name ++ '}' :: rest ∧ n = name.length + 2) ∨
      ∃ rest, p = name ++ rest ∧ n = name.length := by
  unfold referenced at h
  split at h
  · rename_i s
    split_ifs at h with hclose
    obtain ⟨rfl, rfl⟩ := Prod.mk.inj (Option.some.inj h)
    obtain ⟨rest, hrest⟩ := List.head?_eq_some_iff.mp hclose
    refine .inl ⟨rest, ?_, rfl⟩
    rw [List.cons_append, ← hrest, nameOf_append_drop]
  · obtain ⟨rfl, rfl⟩ := Prod.mk.inj (Option.some.inj h)
    exact .inr ⟨_, (nameOf_append_drop p).symm, rfl⟩

theorem valueAt_eq_some {p v : Text} {n : ℕ} (h : valueAt vars p = some (v, n)) :
    ∃ kv ∈ vars, referenced p = some (kv.1, n) ∧ kv.2 = v := by
  obtain ⟨⟨name, n'⟩, href, hv⟩ := Option.bind_eq_some_iff.mp h
  obtain ⟨kv, hkv, heq⟩ := Option.map_eq_some_iff.mp hv
  obtain ⟨rfl, rfl⟩ := Prod.mk.inj heq
  have hname : kv.1 = name := by simpa using List.find?_some hkv
  exact ⟨kv, List.mem_of_find?_eq_some hkv, hname ▸ href, rfl⟩

theorem valueAt_ne_none {p : Text} {n : ℕ} {kv : Text × Text} (hkv : kv ∈ vars)
    (h : referenced p = some (kv.1, n)) : valueAt vars p ≠ none := by
  intro hnone
  rw [valueAt, h, Option.bind_some, Option.map_eq_none_iff, List.find?_eq_none] at hnone
  exact hnone kv hkv (decide_eq_true rfl)

/-- A reference to one of the variables is a token. -/
theorem swap_of_valueAt (hapart : Replacing.Apart (tokens vars)) {p v : Text} {n : ℕ}
    (h : valueAt vars p = some (v, n)) :
    Replacing.swap '$' (tokens vars) p = some (v ++ p.drop n) := by
  obtain ⟨kv, hkv, href, rfl⟩ := valueAt_eq_some h
  have hswap : ∀ r ∈ tokens vars, r.word <+: '$' :: p → r.new = kv.2 → r.word.length - 1 = n →
      Replacing.swap '$' (tokens vars) p = some (kv.2 ++ p.drop n) := by
    intro r hr hpre hnew hlen
    rw [Replacing.swap, Replacing.standing_of hapart hr hpre, Option.map_some, hnew, hlen]
  rcases referenced_eq_some href with ⟨rest, hp, hn⟩ | ⟨rest, hp, hn⟩
  · refine hswap (braced kv) (mem_tokens.mpr ⟨kv, hkv, .inl rfl⟩) ⟨rest, ?_⟩ rfl ?_
    · rw [hp]
      simp [braced]
    · rw [hn]
      simp [braced]
  · refine hswap (unbraced kv) (mem_tokens.mpr ⟨kv, hkv, .inr rfl⟩) ⟨rest, ?_⟩ rfl ?_
    · rw [hp]
      simp [unbraced]
    · rw [hn]
      simp [unbraced]

/-- A token whose name does not go on is a reference. -/
theorem valueAt_of_swap (hnames : ∀ kv ∈ vars, kv.1 ≠ [] ∧ kv.1.all isVarChar = true) {p : Text}
    (h : Replacing.swap '$' (tokens vars) p ≠ none)
    (hended : ∀ kv ∈ vars, ∀ rest, p = kv.1 ++ rest → ∀ c ∈ rest.head?, isVarChar c = false) :
    valueAt vars p ≠ none := by
  obtain ⟨r, hr⟩ : ∃ r, Replacing.standing (tokens vars) ('$' :: p) = some r :=
    Option.ne_none_iff_exists'.mp fun hnone => h (Replacing.swap_eq_none.mpr hnone)
  obtain ⟨hmem, rest, hrest⟩ := Replacing.standing_eq_some hr
  obtain ⟨kv, hkv, rfl | rfl⟩ := mem_tokens.mp hmem
  · obtain rfl : '{' :: (kv.1 ++ '}' :: rest) = p := by simpa [braced] using hrest
    have hname : nameOf (kv.1 ++ '}' :: rest) = kv.1 :=
      nameOf_of_append (hnames kv hkv).2 fun c hc => by obtain rfl := Option.some.inj hc; rfl
    have href : referenced ('{' :: (kv.1 ++ '}' :: rest)) = some (kv.1, kv.1.length + 2) := by
      rw [referenced, hname, List.drop_left]
      rfl
    exact valueAt_ne_none hkv href
  · obtain rfl : kv.1 ++ rest = p := by simpa [unbraced] using hrest
    have hname : nameOf (kv.1 ++ rest) = kv.1 :=
      nameOf_of_append (hnames kv hkv).2 (hended kv hkv rest rfl)
    have href := referenced_plain (head_name (hnames kv hkv) rest)
    rw [hname] at href
    exact valueAt_ne_none hkv href

/-- The pieces with their values, as compose reads them: whether the first dollar is escaped is
given, and each next one is by an empty piece after an unescaped one. -/
def readPieces (vars : List (Text × Text)) : Bool → List Text → List (Text × Option Text)
  | _, [] => []
  | escaped, p :: ps =>
    (p, if escaped then none else (valueAt vars p).map fun vn => vn.1 ++ p.drop vn.2)
      :: readPieces vars (!escaped && p = []) ps

theorem valueAt_append {p t : Text} (ht : t = [] ∨ t.head? = some '$') :
    valueAt vars (p ++ t) = valueAt vars p := by
  rw [valueAt, referenced_append ht, valueAt]

theorem length_of_valueAt {p v : Text} {n : ℕ} (h : valueAt vars p = some (v, n)) :
    n ≤ p.length := by
  obtain ⟨kv, -, href, -⟩ := valueAt_eq_some h
  rcases referenced_eq_some href with ⟨rest, rfl, rfl⟩ | ⟨rest, rfl, rfl⟩
  · simp
  · simp

theorem valueAt_nil (hnames : ∀ kv ∈ vars, kv.1 ≠ [] ∧ kv.1.all isVarChar = true) :
    valueAt vars [] = none := by
  have hnone : (vars.find? fun kv => kv.1 = []) = none :=
    List.find?_eq_none.mpr fun kv hkv h => (hnames kv hkv).1 (of_decide_eq_true h)
  show ((vars.find? fun kv => kv.1 = []).map fun kv => (kv.2, 0)) = none
  rw [hnone]
  rfl

/-- **Compose reads piece by piece.** -/
theorem composed_withMarks (hnames : ∀ kv ∈ vars, kv.1 ≠ [] ∧ kv.1.all isVarChar = true)
    {ps : List Text} (hfree : ∀ p ∈ ps, '$' ∉ p) : composed vars (withMarks '$' ps)
      = (closeUp (readPieces vars false ps)).1
        ++ withMarks '$' (closeUp (readPieces vars false ps)).2 := by
  induction hn : ps.length using Nat.strong_induction_on generalizing ps with
  | _ n ih =>
  subst hn
  cases ps with
  | nil => rfl
  | cons p qs =>
    obtain ⟨hp, hqs⟩ := List.forall_mem_cons.mp hfree
    cases p with
    | nil =>
      cases qs with
      | nil =>
        have hhead : ([] : Text).head? ≠ some '$' := nofun
        rw [withMarks_cons]
        exact (composed_none hhead (valueAt_nil hnames)).trans (by
          rw [readPieces, valueAt_nil hnames]
          rfl)
      | cons q qs =>
        obtain ⟨hq, hqs⟩ := List.forall_mem_cons.mp hqs
        have hrest := ih qs.length (by simp only [List.length_cons]; omega) hqs rfl
        have hread : readPieces vars false ([] :: q :: qs)
            = ([], none) :: (q, none) :: readPieces vars false qs := by
          rw [readPieces, valueAt_nil hnames]
          rfl
        rw [withMarks_cons, withMarks_cons, List.nil_append, composed_escaped, composed_append_free hq,
          hrest, hread, closeUp_none, closeUp_none, withMarks_cons, withMarks_cons]
        simp only [List.nil_append, List.append_assoc]
    | cons c p =>
      have hrest := ih qs.length (Nat.lt_succ_self _) hqs rfl
      have hhead : (c :: p ++ withMarks '$' qs).head? ≠ some '$' :=
        fun h => hp (Option.some.inj h ▸ List.mem_cons_self)
      have hvalue : valueAt vars (c :: p ++ withMarks '$' qs) = valueAt vars (c :: p) :=
        valueAt_append (withMarks_head qs)
      have hread : readPieces vars false ((c :: p) :: qs)
          = (c :: p, (valueAt vars (c :: p)).map fun vn => vn.1 ++ (c :: p).drop vn.2)
            :: readPieces vars false qs := rfl
      cases hv : valueAt vars (c :: p) with
      | none =>
        rw [hv] at hread
        rw [withMarks_cons, composed_none hhead (hvalue.trans hv), composed_append_free hp, hrest,
          hread, Option.map_none, closeUp_none, withMarks_cons, List.nil_append, List.append_assoc]
      | some vn =>
        obtain ⟨v, n⟩ := vn
        have hdrop : '$' ∉ (c :: p).drop n := fun h => hp (List.mem_of_mem_drop h)
        rw [hv] at hread
        rw [withMarks_cons, composed_some hhead (hvalue.trans hv),
          List.drop_append_of_le_length (length_of_valueAt hv), composed_append_free hdrop, hrest,
          hread, Option.map_some, closeUp_some]
        simp only [List.append_assoc]

/-- What compose's reading replaces, the scan of the tokens replaces too; and when both leave as many
dollars, they replace the same. -/
theorem bare_le_readPieces (hapart : Replacing.Apart (tokens vars)) (escaped : Bool)
    (ps : List Text) : Replacing.bare '$' (tokens vars) ps
        ≤ (closeUp (readPieces vars escaped ps)).2.length ∧
      (Replacing.bare '$' (tokens vars) ps = (closeUp (readPieces vars escaped ps)).2.length →
        readPieces vars escaped ps = ps.map fun p => (p, Replacing.swap '$' (tokens vars) p)) := by
  induction ps generalizing escaped with
  | nil => exact ⟨le_rfl, fun _ => rfl⟩
  | cons p ps ih =>
    obtain ⟨hle, heq⟩ := ih (!escaped && p = [])
    have hbare : Replacing.bare '$' (tokens vars) (p :: ps) = Replacing.bare '$' (tokens vars) ps
        + if (Replacing.swap '$' (tokens vars) p).isNone then 1 else 0 := List.countP_cons
    rw [hbare, readPieces, List.map_cons]
    cases hv : (if escaped then none else (valueAt vars p).map fun vn => vn.1 ++ p.drop vn.2) with
    | none =>
      rw [closeUp_none, List.length_cons]
      cases hs : Replacing.swap '$' (tokens vars) p with
      | none =>
        rw [Option.isNone_none, if_pos rfl]
        exact ⟨by omega, fun h => by rw [heq (by omega)]⟩
      | some x =>
        rw [Option.isNone_some, if_neg Bool.false_ne_true]
        exact ⟨by omega, fun h => by omega⟩
    | some x =>
      obtain ⟨⟨v, n⟩, hvalue, rfl⟩ : ∃ vn, valueAt vars p = some vn ∧ vn.1 ++ p.drop vn.2 = x := by
        cases escaped with
        | true => cases hv
        | false => exact Option.map_eq_some_iff.mp hv
      rw [closeUp_some, swap_of_valueAt hapart hvalue, Option.isNone_some,
        if_neg Bool.false_ne_true]
      exact ⟨hle, fun h => by rw [heq h]⟩

theorem readPieces_free (hvalues : ∀ kv ∈ vars, '$' ∉ kv.2) (escaped : Bool) {ps : List Text}
    (hfree : ∀ p ∈ ps, '$' ∉ p) : '$' ∉ (closeUp (readPieces vars escaped ps)).1 ∧
      ∀ q ∈ (closeUp (readPieces vars escaped ps)).2, '$' ∉ q := by
  have hread : ∀ d ∈ readPieces vars escaped ps, '$' ∉ d.1 ∧ ∀ x ∈ d.2, '$' ∉ x := by
    induction ps generalizing escaped with
    | nil => exact fun _ h => absurd h List.not_mem_nil
    | cons p ps ih =>
      obtain ⟨hp, hps⟩ := List.forall_mem_cons.mp hfree
      refine List.forall_mem_cons.mpr ⟨⟨hp, fun x hx => ?_⟩, ih _ hps⟩
      cases escaped with
      | true => cases hx
      | false =>
        obtain ⟨⟨v, n⟩, hvn, rfl⟩ := Option.map_eq_some_iff.mp (Option.mem_def.mp hx)
        obtain ⟨kv, hkv, -, rfl⟩ := valueAt_eq_some hvn
        exact List.not_mem_append (hvalues kv hkv) fun h => hp (List.mem_of_mem_drop h)
  exact Replacing.closeUp_free (fun d hd => (hread d hd).1) fun d hd => (hread d hd).2

/-- Whether the dollar after these pieces is escaped. -/
def escapedAfter (escaped : Bool) (ps : List Text) : Bool :=
  ps.foldl (fun escaped p => !escaped && p = []) escaped

theorem readPieces_eq_iff (hapart : Replacing.Apart (tokens vars)) (escaped : Bool)
    (ps : List Text) :
    (readPieces vars escaped ps = ps.map fun p => (p, Replacing.swap '$' (tokens vars) p)) ↔
      ∀ before p after, ps = before ++ p :: after → Replacing.swap '$' (tokens vars) p ≠ none →
        escapedAfter escaped before = false ∧ valueAt vars p ≠ none := by
  induction ps generalizing escaped with
  | nil =>
    refine iff_of_true rfl fun before p after h => ?_
    exact absurd (congrArg List.length h) (by simp)
  | cons p ps ih =>
    have hhead : (if escaped then none else (valueAt vars p).map fun vn => vn.1 ++ p.drop vn.2)
          = Replacing.swap '$' (tokens vars) p
        ↔ (Replacing.swap '$' (tokens vars) p ≠ none → escaped = false ∧ valueAt vars p ≠ none) := by
      constructor
      · intro h hs
        cases escaped with
        | true => exact absurd h.symm hs
        | false =>
          refine ⟨rfl, fun hnone => hs ?_⟩
          rw [← h, hnone]
          rfl
      · intro h
        by_cases hs : Replacing.swap '$' (tokens vars) p = none
        · cases hv : valueAt vars p with
          | none =>
            rw [hs]
            cases escaped <;> rfl
          | some vn =>
            rw [swap_of_valueAt hapart hv] at hs
            cases hs
        · obtain ⟨rfl, hv⟩ := h hs
          obtain ⟨vn, hvn⟩ := Option.ne_none_iff_exists'.mp hv
          rw [swap_of_valueAt hapart hvn, hvn]
          rfl
    rw [readPieces, List.map_cons, List.cons.injEq, Prod.mk.injEq, hhead, ih]
    constructor
    · rintro ⟨⟨-, hfirst⟩, hrest⟩ before q after h hs
      cases before with
      | nil =>
        obtain ⟨rfl, -⟩ := List.cons.inj h
        exact hfirst hs
      | cons p' before =>
        obtain ⟨rfl, hps⟩ := List.cons.inj h
        exact hrest before q after hps hs
    · intro h
      refine ⟨⟨rfl, h [] p ps rfl⟩, fun before q after hps => ?_⟩
      exact h (p :: before) q after (by rw [hps, List.cons_append])

/-! ### Compose's reading, and the tokens -/

theorem dollars_eq_zero {s : Text} (h : s.getLast? ≠ some '$') : dollars s = 0 := by
  rw [List.getLast?_eq_head?_reverse] at h
  unfold dollars
  cases hs : s.reverse with
  | nil => rfl
  | cons c u =>
    rw [hs] at h
    have hc : c ≠ '$' := fun heq => h (congrArg some heq)
    rw [List.takeWhile_cons, decide_eq_false hc]
    rfl

theorem dollars_concat (s : Text) : dollars (s ++ ['$']) = dollars s + 1 := by
  rw [dollars, List.reverse_append]
  rfl

/-- The dollar after these pieces is escaped when an odd number of dollars stands before it. -/
theorem escapedAfter_iff {h : Text} (hh : '$' ∉ h) {ps : List Text} (hfree : ∀ p ∈ ps, '$' ∉ p) :
    escapedAfter false ps = false ↔ Even (dollars (h ++ withMarks '$' ps)) := by
  induction ps using List.reverseRecOn with
  | nil =>
    have hlast : h.getLast? ≠ some '$' := fun hlast => hh (List.mem_of_getLast? hlast)
    rw [show h ++ withMarks '$' [] = h from List.append_nil h, dollars_eq_zero hlast]
    exact iff_of_true rfl Even.zero
  | append_singleton ps p ih =>
    obtain ⟨hps, hp⟩ := List.forall_mem_append.mp hfree
    have hafter : escapedAfter false (ps ++ [p]) = (!escapedAfter false ps && decide (p = [])) :=
      List.foldl_concat ..
    have hcut : h ++ withMarks '$' (ps ++ [p]) = h ++ withMarks '$' ps ++ ['$'] ++ p := by
      rw [withMarks_append, withMarks_cons]
      simp only [List.append_assoc, List.singleton_append]
      rw [show withMarks '$' [] = [] from rfl, List.append_nil]
    rw [hafter, hcut]
    by_cases hnil : p = []
    · subst hnil
      rw [List.append_nil, dollars_concat, Nat.even_add_one, ← ih hps]
      cases escapedAfter false ps <;> simp
    · have hlast : (h ++ withMarks '$' ps ++ ['$'] ++ p).getLast? ≠ some '$' := by
        rw [List.getLast?_append_of_ne_nil _ hnil]
        exact fun hlast => hp p (List.mem_singleton_self p) (List.mem_of_getLast? hlast)
      rw [dollars_eq_zero hlast, decide_eq_false hnil, Bool.and_false]
      exact iff_of_true rfl Even.zero

/-- Every token is a reference, said of the pieces. -/
theorem refers_iff (hnames : ∀ kv ∈ vars, kv.1 ≠ [] ∧ kv.1.all isVarChar = true)
    (hmarked : ∀ r ∈ tokens vars, Replacing.Marked '$' r) (hapart : Replacing.Apart (tokens vars))
    (s : Text) : Refers vars s ↔ ∀ h ps, s = h ++ withMarks '$' ps → '$' ∉ h → (∀ p ∈ ps, '$' ∉ p) →
      readPieces vars false ps = ps.map fun p => (p, Replacing.swap '$' (tokens vars) p) := by
  constructor
  · rintro href h ps rfl hh hfree
    rw [readPieces_eq_iff hapart]
    rintro before p after rfl hs
    obtain ⟨hbefore, -⟩ := List.forall_mem_append.mp hfree
    have hcut : h ++ withMarks '$' (before ++ p :: after)
        = (h ++ withMarks '$' before) ++ '$' :: p ++ withMarks '$' after := by
      rw [withMarks_append, withMarks_cons]
      simp only [List.append_assoc, List.cons_append]
    refine ⟨(escapedAfter_iff hh hbefore).mpr ?_, valueAt_of_swap hnames hs ?_⟩
    · obtain ⟨r, hr⟩ : ∃ r, Replacing.standing (tokens vars) ('$' :: p) = some r :=
        Option.ne_none_iff_exists'.mp fun hnone => hs (Replacing.swap_eq_none.mpr hnone)
      obtain ⟨hmem, rest, hrest⟩ := Replacing.standing_eq_some hr
      refine href.unescaped r hmem (h ++ withMarks '$' before) (rest ++ withMarks '$' after) ?_
      rw [hcut, ← hrest]
      simp only [List.append_assoc]
    · rintro kv hkv rest rfl c hc
      refine href.ended kv hkv (h ++ withMarks '$' before) (rest ++ withMarks '$' after) ?_ c ?_
      · rw [hcut]
        simp [unbraced]
      · rw [List.head?_append, Option.mem_def.mp hc]
        rfl
  · intro hread
    -- a token of the text, in the piece after its dollar
    have hpiece : ∀ r ∈ tokens vars, ∀ body, r.word = '$' :: body → ∀ before q qs, '$' ∉ q →
        (∀ p ∈ qs, '$' ∉ p) → s = before ++ r.word ++ (q ++ withMarks '$' qs) →
        Even (dollars before) ∧ valueAt vars (body ++ q) ≠ none := by
      intro r hr body hword before q qs hq hqs hs
      obtain ⟨h, ps, rfl, hh, hps⟩ := Replacing.exists_withMarks '$' before
      have hbody : '$' ∉ body := by
        obtain ⟨body', hword', hbody'⟩ := (hmarked r hr).word
        rw [hword] at hword'
        rwa [(List.cons.inj hword').2]
      have hcut : s = h ++ withMarks '$' (ps ++ (body ++ q) :: qs) := by
        rw [hs, hword, withMarks_append, withMarks_cons]
        simp only [List.append_assoc, List.cons_append]
      have hfree : ∀ p ∈ ps ++ (body ++ q) :: qs, '$' ∉ p :=
        List.forall_mem_append.mpr ⟨hps, List.forall_mem_cons.mpr ⟨List.not_mem_append hbody hq, hqs⟩⟩
      have hstands : Replacing.swap '$' (tokens vars) (body ++ q) ≠ none := by
        rw [Ne, Replacing.swap_eq_none, Replacing.standing_eq_none]
        refine fun hnone => hnone r hr ?_
        rw [hword]
        exact List.prefix_append ('$' :: body) q
      obtain ⟨hescaped, hvalue⟩ :=
        (readPieces_eq_iff hapart false _).mp (hread h _ hcut hh hfree) ps _ qs rfl hstands
      exact ⟨(escapedAfter_iff hh hps).mp hescaped, hvalue⟩
    refine ⟨fun r hr before after hs => ?_, fun kv hkv before after hs c hc => ?_⟩
    · obtain ⟨q, qs, rfl, hq, hqs⟩ := Replacing.exists_withMarks '$' after
      obtain ⟨body, hword, -⟩ := (hmarked r hr).word
      exact (hpiece r hr body hword before q qs hq hqs hs).1
    · obtain ⟨q, qs, rfl, hq, hqs⟩ := Replacing.exists_withMarks '$' after
      have hmem : unbraced kv ∈ tokens vars := mem_tokens.mpr ⟨kv, hkv, .inr rfl⟩
      have hvalue := (hpiece _ hmem kv.1 rfl before q qs hq hqs hs).2
      cases q with
      | nil =>
        rcases withMarks_head (m := '$') qs with hnil | hhead
        · rw [List.nil_append, hnil] at hc
          cases hc
        · rw [List.nil_append, hhead] at hc
          obtain rfl := Option.some.inj hc
          rfl
      | cons d q =>
        obtain rfl : d = c := Option.some.inj hc
        -- a longer name would be another variable's, and its token would begin with this one
        by_contra hd
        rw [Bool.not_eq_false] at hd
        obtain ⟨⟨v, n⟩, hvn⟩ := Option.ne_none_iff_exists'.mp hvalue
        obtain ⟨kv', hkv', href, -⟩ := valueAt_eq_some hvn
        rw [referenced_plain (head_name (hnames kv hkv) _)] at href
        have hname : nameOf (kv.1 ++ d :: q) = kv.1 ++ d :: nameOf q := by
          rw [nameOf, List.takeWhile_append_of_pos (List.all_eq_true.mp (hnames kv hkv).2),
            List.takeWhile_cons_of_pos hd, nameOf]
        have hlong : kv'.1 = kv.1 ++ d :: nameOf q :=
          (Prod.mk.inj (Option.some.inj href)).1.symm.trans hname
        have hpre : (unbraced kv).word <+: (unbraced kv').word := by
          refine ⟨d :: nameOf q, ?_⟩
          show "$".toList ++ kv.1 ++ _ = "$".toList ++ kv'.1
          rw [hlong, List.append_assoc]
        have heq := hapart.eq hmem (mem_tokens.mpr ⟨kv', hkv', .inr rfl⟩) hpre (List.prefix_refl _)
        have hlen := congrArg (fun r : Rule Char => r.word.length) heq
        simp [unbraced, hlong] at hlen

end Composed

theorem names_map (vars : Vars) :
    ∀ kv ∈ vars.map, kv.1 ≠ [] ∧ kv.1.all isVarChar = true := by
  have hkeys : ∀ k ∈ vars.map.map Prod.fst, k ≠ [] ∧ k.all isVarChar = true := by
    show ∀ k ∈ ["PVE_GID", "PVE_NAME", "PVE_STACK", "PVE_UID", "PVE_VMID"].map String.toList, _
    decide
  exact fun kv hkv => hkeys kv.1 (List.mem_map_of_mem hkv)

/-- **Substitution replaces compose's references, exactly when every token is one and none is formed
(proved).** -/
theorem substitute_eq_composed_iff {vars : Vars} (hfree : ∀ kv ∈ vars.map, '$' ∉ kv.2) (s : Text) :
    substitute s vars.map = composed vars.map s ↔ Refers vars.map s ∧ NoneFormed vars.map s := by
  have hmarked := marked_tokens hfree
  have hapart := apart_tokens vars
  have hnames := names_map vars
  have hsame : ∀ h ps, '$' ∉ h → (∀ p ∈ ps, '$' ∉ p) → readPieces vars.map false ps
        = ps.map (fun p => (p, Replacing.swap '$' (tokens vars.map) p)) →
      composed vars.map (h ++ withMarks '$' ps)
        = Replacing.once (tokens vars.map) (h ++ withMarks '$' ps) := by
    intro h ps hh hps hread
    rw [composed_append_free hh, composed_withMarks hnames hps, hread,
      Replacing.once_append_free hmarked hh, Replacing.once_withMarks hmarked hps]
    rfl
  rw [refers_iff hnames hmarked hapart s]
  constructor
  · intro heq
    -- a scan of the tokens leaves no more dollars than compose's reading, and turns no more than it
    have hread : ∀ h ps, s = h ++ withMarks '$' ps → '$' ∉ h → (∀ p ∈ ps, '$' ∉ p) →
        readPieces vars.map false ps
          = ps.map fun p => (p, Replacing.swap '$' (tokens vars.map) p) := by
      rintro h ps rfl hh hps
      obtain ⟨hle, hsameRead⟩ := bare_le_readPieces hapart false ps
      refine hsameRead (le_antisymm hle ?_)
      obtain ⟨ha, hq⟩ := readPieces_free hfree false hps
      calc (closeUp (readPieces vars.map false ps)).2.length
          = (composed vars.map (h ++ withMarks '$' ps)).count '$' := by
            rw [composed_append_free hh, composed_withMarks hnames hps, ← List.append_assoc,
              Replacing.count_withMarks (List.not_mem_append hh ha) hq]
        _ ≤ (Replacing.once (tokens vars.map) (h ++ withMarks '$' ps)).count '$' := by
            rw [← heq, substitute_eq_oneByOne]
            exact Replacing.marks_oneByOne_le hmarked _
        _ = _ := Replacing.count_once hmarked hh hps
    obtain ⟨h, ps, rfl, hh, hps⟩ := Replacing.exists_withMarks '$' s
    refine ⟨hread, (noneFormed_iff hfree _).mpr ?_⟩
    rw [← substitute_eq_oneByOne, heq, hsame h ps hh hps (hread h ps rfl hh hps)]
  · rintro ⟨hread, hnone⟩
    obtain ⟨h, ps, rfl, hh, hps⟩ := Replacing.exists_withMarks '$' s
    rw [substitute_eq_oneByOne, (noneFormed_iff hfree _).mp hnone,
      hsame h ps hh hps (hread h ps rfl hh hps)]

theorem refers_srv : Refers uidVars.map "/srv/${PVE_NAME}" :=
  ((substitute_eq_composed_iff uidVars_free _).mp (by decide)).1

/-- **`$PVE_UID2` and `$$PVE_UID`**: the start of another variable's name, and the name after an
escaped dollar, are replaced. -/
theorem substitute_ne_composed : ∃ vars : Vars, (∀ kv ∈ vars.map, '$' ∉ kv.2) ∧
    (substitute "$PVE_UID2" vars.map = "10002".toList ∧
      composed vars.map "$PVE_UID2" = "$PVE_UID2".toList) ∧
    substitute "$$PVE_UID" vars.map = "$1000".toList ∧
      composed vars.map "$$PVE_UID" = "$$PVE_UID".toList :=
  ⟨uidVars, uidVars_free, ⟨by decide, by decide⟩, by decide,
    by decide⟩

end PveCompose
