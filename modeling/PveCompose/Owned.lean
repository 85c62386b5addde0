import PveCompose.CommandLine

/-!
# Whom a directory belongs to (`spec.rs`, `stack.rs`, `apply.rs`)

One owner text is read twice: by `split_owner`, for what is rendered, and by `chown` in the guest.
`runScript` is a guest that runs what its shell reads of the script of `ensure_layout`; `chown`
itself is a parameter, with what is relied on in `Chowns`.

* `runScript_layoutScript` — **PROVED**: the script does to each directory, in order, what
  `layoutStep` says;
* `owned_as_rendered_iff` — **PROVED**: a directory found with the owner `0:0` gets the two numbers
  that are rendered exactly when the owner text names both, or is zero.
-/

namespace PveCompose

open Programs Shell

/-! ### A guest that runs the script -/

/-- Whom the directories belong to, whether the shell stands in a branch that is not taken, and
whether it has given up (`set -e`). -/
structure Layout where
  owned : Text → Option (ℕ × ℕ)
  skips : Bool
  failed : Bool

/-- What `stat -c %u:%g` prints. -/
def ownerText (ids : ℕ × ℕ) : Text := dec ids.1 ++ ':' :: dec ids.2

/-- The characters of a word of `$(…)`. -/
def innerText (w : List Shell.Part) : Text :=
  w.flatMap fun
    | .bare c | .quoted c => [c]
    | .command _ _ => []

/-- What a command in a word prints; the one in the script is `stat`. -/
def printed (s : Layout) : List Token → Text
  | [.word a, .word b, .word c, .word dir] =>
    if innerText a = "stat" ∧ innerText b = "-c" ∧ innerText c = "%u:%g" then
      (s.owned (innerText dir)).elim [] ownerText
    else []
  | _ => []

/-- What a word stands for. -/
def wordText (s : Layout) (w : List Shell.Part) : Text :=
  w.flatMap fun
    | .bare c | .quoted c => [c]
    | .command _ ts => printed s ts

/-- `mkdir -p`: what is missing is made, and is root's. -/
def Layout.made (s : Layout) (dirs : List Text) : Layout :=
  { s with owned := fun d => if d ∈ dirs then some ((s.owned d).getD (0, 0)) else s.owned d }

/-- `chown`; that it fails ends the script. -/
def Layout.chowned (chown : Text → ℕ × ℕ → Option (ℕ × ℕ)) (s : Layout) (owner dir : Text) : Layout :=
  match (s.owned dir).bind (chown owner) with
  | some ids => { s with owned := Function.update s.owned dir (some ids) }
  | none => { s with failed := true }

variable (chown : Text → ℕ × ℕ → Option (ℕ × ℕ))

/-- One command, as words; one that the script has not does nothing. -/
def runCommand (s : Layout) (c : List (List Shell.Part)) : Layout :=
  if s.failed then s
  else match c.map (wordText s) with
    | [] => s
    | name :: args =>
      if name = "fi" then { s with skips := false }
      else if s.skips then s
      else if name = "mkdir" then if args.head? = some "-p".toList then s.made args.tail else s
      else if name = "if" then
        match args with
        | [bracket, a, equals, b, last] =>
          if bracket = "[" ∧ equals = "=" ∧ last = "]" then { s with skips := a ≠ b } else s
        | _ => s
      else if name = "then" then
        match args with
        | [command, owner, dir] => if command = "chown" then s.chowned chown owner dir else s
        | _ => s
      else s

/-- The tokens of a script, from where the words before the next `;` are `acc`. -/
def runTokens (s : Layout) (acc : List (List Shell.Part)) : List Token → Layout
  | [] => runCommand chown s acc
  | .word w :: ts => runTokens s (acc ++ [w]) ts
  | .operator _ :: ts => runTokens (runCommand chown s acc) [] ts

/-- A script, as the shell reads it. -/
def runScript (s : Layout) (script : Text) : Layout :=
  (lex script).elim s (runTokens chown s [])

/-- What is done to one directory. -/
def layoutStep (s : Layout) (o : Text × Text) : Layout :=
  if s.failed then s
  else if (s.made [o.1]).owned o.1 = some (0, 0) then (s.made [o.1]).chowned chown o.2 o.1
  else s.made [o.1]

/-! ### Words -/

theorem wordText_bare (s : Layout) (t : Text) : wordText s (bare t).2 = t := by
  rw [wordText, bare, List.flatMap_map]
  exact List.flatMap_singleton' t

theorem wordText_single (s : Layout) (t : Text) : wordText s (single t).2 = t := by
  rw [wordText, single, List.flatMap_map]
  exact List.flatMap_singleton' t

theorem innerText_bare (t : Text) : innerText (bare t).2 = t := by
  rw [innerText, bare, List.flatMap_map]
  exact List.flatMap_singleton' t

theorem innerText_single (t : Text) : innerText (single t).2 = t := by
  rw [innerText, single, List.flatMap_map]
  exact List.flatMap_singleton' t

theorem wordText_statWord (s : Layout) (dir : Text) :
    wordText s (statWord dir).2 = (s.owned dir).elim [] ownerText := by
  show printed s [.word (bare "stat").2, .word (bare "-c").2, .word (bare "%u:%g").2,
    .word (single dir).2] ++ [] = _
  rw [List.append_nil, printed]
  simp only [innerText_bare, innerText_single, and_self, if_true]

theorem ownerText_eq_zero_iff {ids : ℕ × ℕ} : ownerText ids = "0:0" ↔ ids = (0, 0) := by
  constructor
  · intro h
    have hcolon : ∀ n, ':' ∉ dec n := fun n => not_mem_dec (by decide)
    have hcut : Words.splitOnce ':' (ownerText ids) = some (dec ids.1, dec ids.2) :=
      Words.splitOnce_append (dec ids.2) (hcolon ids.1)
    rw [h] at hcut
    have hzero : (dec 0, dec 0) = (dec ids.1, dec ids.2) := Option.some.inj hcut
    obtain ⟨hu, hg⟩ := Prod.mk.inj hzero
    have hu' := congrArg parseNat hu
    have hg' := congrArg parseNat hg
    rw [parseNat_dec, parseNat_dec] at hu' hg'
    exact Prod.ext hu'.symm hg'.symm
  · rintro rfl
    rfl

/-! ### Commands -/

variable {chown}

theorem runCommand_failed {s : Layout} (h : s.failed = true) (c : List (List Shell.Part)) :
    runCommand chown s c = s := if_pos h

theorem runCommand_nil (s : Layout) : runCommand chown s [] = s := by
  unfold runCommand
  split_ifs <;> rfl

theorem runTokens_words (s : Layout) (c : List Spelled) (ts : List Token) :
    ∀ acc, runTokens chown s acc ((c.map fun w => .word w.2) ++ ts)
      = runTokens chown s (acc ++ c.map Prod.snd) ts := by
  induction c with
  | nil =>
    intro acc
    rw [List.map_nil, List.map_nil, List.append_nil]
    rfl
  | cons w c ih =>
    intro acc
    rw [List.map_cons, List.cons_append, runTokens, ih, List.append_assoc]
    rfl

/-- Commands are run one by one. -/
theorem runTokens_commandTokens (s : Layout) (cs : List (List Spelled)) (ts : List Token) :
    runTokens chown s [] (commandTokens cs ++ ts)
      = runTokens chown (cs.foldl (fun s c => runCommand chown s (c.map Prod.snd)) s) [] ts := by
  induction cs generalizing s with
  | nil => rfl
  | cons c cs ih =>
    have hcut : commandTokens (c :: cs) ++ ts
        = (c.map fun w => .word w.2) ++ (.operator [';'] :: (commandTokens cs ++ ts)) := by
      simp [commandTokens]
    rw [hcut, runTokens_words, List.nil_append, runTokens, ih]
    rfl

variable {s : Layout}

theorem runCommand_mkdir (hfail : s.failed = false) (hskip : s.skips = false) (dirs : List Spelled) :
    runCommand chown s (([bare "mkdir", bare "-p"] ++ dirs).map Prod.snd)
      = s.made (dirs.map fun d => wordText s d.2) := by
  rw [runCommand, hfail]
  simp only [List.cons_append, List.nil_append, List.map_cons, wordText_bare, hskip, List.map_map]
  rfl

theorem runCommand_if (hfail : s.failed = false) (hskip : s.skips = false) (dir : Text) :
    runCommand chown s ([bare "if", bare "[", statWord dir, bare "=", single "0:0", bare "]"].map
        Prod.snd)
      = { s with skips := (s.owned dir).elim [] ownerText ≠ "0:0" } := by
  rw [runCommand, hfail]
  simp only [List.map_cons, List.map_nil, wordText_bare, wordText_single, wordText_statWord, hskip]
  rfl

theorem runCommand_then (hfail : s.failed = false) (owner dir : Text) :
    runCommand chown s ([bare "then", bare "chown", single owner, single dir].map Prod.snd)
      = if s.skips then s else s.chowned chown owner dir := by
  rw [runCommand, hfail]
  simp only [List.map_cons, List.map_nil, wordText_bare, wordText_single]
  rfl

theorem runCommand_fi (hfail : s.failed = false) :
    runCommand chown s ([bare "fi"].map Prod.snd) = { s with skips := false } := by
  rw [runCommand, hfail]
  simp only [List.map_cons, List.map_nil, wordText_bare]
  rfl

/-! ### The script -/

theorem made_owned_self (s : Layout) (dir : Text) :
    (s.made [dir]).owned dir = some ((s.owned dir).getD (0, 0)) := if_pos (List.mem_singleton_self _)

theorem made_owned_other {dir d : Text} (h : d ≠ dir) (s : Layout) :
    (s.made [dir]).owned d = s.owned d := if_neg fun hd => h (List.mem_singleton.mp hd)

theorem chowned_skips (s : Layout) (owner dir : Text) :
    (s.chowned chown owner dir).skips = s.skips := by
  unfold Layout.chowned
  split <;> rfl

theorem chowned_owned_other {dir d : Text} (h : d ≠ dir) (s : Layout) (owner : Text) :
    (s.chowned chown owner dir).owned d = s.owned d := by
  unfold Layout.chowned
  split
  · exact Function.update_of_ne h _ _
  · rfl

theorem layoutStep_skips (hskip : s.skips = false) (o : Text × Text) :
    (layoutStep chown s o).skips = false := by
  unfold layoutStep
  split_ifs
  · exact hskip
  · rw [chowned_skips]
    exact hskip
  · exact hskip

/-- A directory is left alone by the steps of the others. -/
theorem layoutStep_owned_other {o : Text × Text} {d : Text} (h : d ≠ o.1) (s : Layout) :
    (layoutStep chown s o).owned d = s.owned d := by
  unfold layoutStep
  split_ifs
  · rfl
  · rw [chowned_owned_other h, made_owned_other h]
  · exact made_owned_other h s

theorem fi_eq (hskip : s.skips = false) : runCommand chown s ([bare "fi"].map Prod.snd) = s := by
  by_cases hfail : s.failed = true
  · exact runCommand_failed hfail _
  · rw [runCommand_fi (Bool.not_eq_true _ ▸ hfail)]
    cases s
    cases hskip
    rfl

/-- **The four commands of one directory.** -/
theorem run_volumeCommands (hskip : s.skips = false) (dir owner : Text) :
    (volumeCommands dir owner).foldl (fun s c => runCommand chown s (c.map Prod.snd)) s
      = layoutStep chown s (dir, owner) := by
  unfold volumeCommands layoutStep
  rw [List.foldl_cons, List.foldl_cons, List.foldl_cons, List.foldl_cons, List.foldl_nil]
  by_cases hfail : s.failed = true
  · rw [runCommand_failed hfail, runCommand_failed hfail, runCommand_failed hfail,
      runCommand_failed hfail, if_pos hfail]
  · rw [if_neg hfail]
    have hfail : s.failed = false := Bool.not_eq_true _ ▸ hfail
    have hmkdir : runCommand chown s ([bare "mkdir", bare "-p", single dir].map Prod.snd)
        = s.made [dir] := by
      have h : runCommand chown s (([bare "mkdir", bare "-p"] ++ [single dir]).map Prod.snd) = _ :=
        runCommand_mkdir hfail hskip [single dir]
      rwa [List.map_singleton, wordText_single] at h
    have hfail' : (s.made [dir]).failed = false := hfail
    have hskip' : (s.made [dir]).skips = false := hskip
    rw [hmkdir, runCommand_if hfail' hskip', made_owned_self, Option.elim_some]
    by_cases hzero : (s.owned dir).getD (0, 0) = (0, 0)
    · -- the directory is root's: the branch is taken
      have hbranch : ({ s.made [dir] with
          skips := decide (ownerText ((s.owned dir).getD (0, 0)) ≠ "0:0") } : Layout)
          = s.made [dir] := by
        rw [hzero, decide_eq_false (not_not.mpr (ownerText_eq_zero_iff.mpr rfl)), ← hskip']
      rw [hbranch, runCommand_then hfail', hskip', if_neg Bool.false_ne_true, if_pos (by rw [hzero]),
        fi_eq ((chowned_skips _ _ _).trans hskip')]
    · have hbranch : ({ s.made [dir] with
          skips := decide (ownerText ((s.owned dir).getD (0, 0)) ≠ "0:0") } : Layout)
          = { s.made [dir] with skips := true } := by
        have hne : ownerText ((s.owned dir).getD (0, 0)) ≠ "0:0" :=
          fun h => hzero (ownerText_eq_zero_iff.mp h)
        rw [decide_eq_true hne]
      have hskipped : ({ s.made [dir] with skips := true } : Layout).failed = false := hfail
      rw [hbranch, runCommand_then hskipped, if_pos rfl, runCommand_fi hskipped,
        if_neg fun h => hzero (Option.some.inj h)]
      show ({ s.made [dir] with skips := false } : Layout) = s.made [dir]
      rw [← hskip']

theorem run_volumes (hskip : s.skips = false) (owners : List (Text × Text)) :
    (owners.flatMap fun o => volumeCommands o.1 o.2).foldl
        (fun s c => runCommand chown s (c.map Prod.snd)) s = owners.foldl (layoutStep chown) s := by
  induction owners generalizing s with
  | nil => rfl
  | cons o owners ih =>
    rw [List.flatMap_cons, List.foldl_append, run_volumeCommands hskip, List.foldl_cons]
    exact ih (layoutStep_skips hskip o)

/-- The state of a guest before its directories are looked at. -/
def Layout.fresh (owned : Text → Option (ℕ × ℕ)) : Layout := ⟨owned, false, false⟩

theorem run_layoutCommands (owned : Text → Option (ℕ × ℕ)) :
    layoutCommands.foldl (fun s c => runCommand chown s (c.map Prod.snd)) (.fresh owned)
      = (Layout.fresh owned).made [VOLUMES_DIR, FACTS_DIR] := by
  have hset : runCommand chown (.fresh owned) ([bare "set", bare "-e"].map Prod.snd)
      = .fresh owned := by
    simp only [runCommand, List.map_cons, List.map_nil, wordText_bare]
    rfl
  have hmkdir : runCommand chown (.fresh owned)
      (([bare "mkdir", bare "-p"] ++ [bare VOLUMES_DIR, bare FACTS_DIR]).map Prod.snd) = _ :=
    runCommand_mkdir rfl rfl [bare VOLUMES_DIR, bare FACTS_DIR]
  have hchmod : runCommand chown ((Layout.fresh owned).made [VOLUMES_DIR, FACTS_DIR])
      ([bare "chmod", bare "0755", bare STACK_DIR].map Prod.snd)
        = (Layout.fresh owned).made [VOLUMES_DIR, FACTS_DIR] := by
    simp only [runCommand, List.map_cons, List.map_nil, wordText_bare]
    rfl
  simp only [List.map_cons, List.map_nil, wordText_bare, List.cons_append, List.nil_append] at hmkdir
  unfold layoutCommands
  rw [List.foldl_cons, List.foldl_cons, List.foldl_cons, List.foldl_nil, hset]
  simp only [List.map_cons, List.map_nil] at hchmod ⊢
  rw [hmkdir, hchmod]

/-- **The script, directory by directory (proved).** -/
theorem runScript_layoutScript {owners : List (Text × Text)}
    (h : ∀ o ∈ owners, '\'' ∉ o.1 ∧ '\'' ∉ o.2) (owned : Text → Option (ℕ × ℕ)) :
    runScript chown (.fresh owned) (layoutScript owners)
      = owners.foldl (layoutStep chown) ((Layout.fresh owned).made [VOLUMES_DIR, FACTS_DIR]) := by
  rw [runScript, lex_layoutScript h, Option.elim_some]
  have htokens : runTokens chown (.fresh owned) [] (commandTokens (layoutCommands
      ++ owners.flatMap fun o => volumeCommands o.1 o.2) ++ []) = _ := runTokens_commandTokens _ _ []
  rw [List.append_nil, List.foldl_append, run_layoutCommands, run_volumes rfl] at htokens
  rw [htokens]
  exact runCommand_nil _

/-! ### One directory -/

/-- A number `chown` takes for a user or a group; the last one of the range is none. -/
def IsId (t : Text) : Prop := (t ≠ [] ∧ t.all isDigit = true) ∧ parseNat t < 2 ^ 32 - 1

/-- What is relied on of `chown`: `u:g` sets both, `u` alone the user. -/
structure Chowns (chown : Text → ℕ × ℕ → Option (ℕ × ℕ)) : Prop where
  both : ∀ u g ids, IsId u → IsId g → chown (u ++ ':' :: g) ids = some (parseNat u, parseNat g)
  user : ∀ u ids, IsId u → chown u ids = some (parseNat u, ids.2)

/-- The owner text names a group of its own, or is zero. -/
def NamesBoth (owner : Text) : Prop := ':' ∈ owner ∨ parseNat owner = 0

/-- What becomes of a directory that is root's. -/
theorem chown_root (hchown : Chowns chown) {owner uid gid : Text}
    (hsplit : splitOwner owner = .ok (uid, gid))
    (hrange : parseNat uid < 2 ^ 32 - 1 ∧ parseNat gid < 2 ^ 32 - 1) :
    chown owner (0, 0) = some (parseNat uid, if ':' ∈ owner then parseNat gid else 0) := by
  obtain ⟨hu, hg, hboth | ⟨hcolon, huser, -⟩⟩ := splitOwner_cases hsplit
  · have hmem : ':' ∈ owner := by
      rw [hboth]
      exact List.mem_append_right _ List.mem_cons_self
    rw [if_pos hmem, hboth]
    exact hchown.both uid gid (0, 0) ⟨hu, hrange.1⟩ ⟨hg, hrange.2⟩
  · rw [if_neg hcolon, huser]
    exact hchown.user uid (0, 0) ⟨hu, hrange.1⟩

theorem layoutStep_root {dir owner : Text} {ids : ℕ × ℕ} (hfail : s.failed = false)
    (hroot : (s.owned dir).getD (0, 0) = (0, 0)) (hids : chown owner (0, 0) = some ids) :
    (layoutStep chown s (dir, owner)).owned dir = some ids := by
  have hmade : (s.made [dir]).owned dir = some (0, 0) := by rw [made_owned_self, hroot]
  rw [layoutStep, if_neg (by rw [hfail]; exact Bool.false_ne_true), if_pos hmade, Layout.chowned,
    hmade, Option.bind_some, hids]
  exact Function.update_self _ _ _

theorem foldl_owned_other {owners : List (Text × Text)} {d : Text} (h : ∀ o ∈ owners, o.1 ≠ d)
    (s : Layout) : (owners.foldl (layoutStep chown) s).owned d = s.owned d := by
  induction owners generalizing s with
  | nil => rfl
  | cons o owners ih =>
    rw [List.foldl_cons, ih fun o' ho' => h o' (List.mem_cons_of_mem _ ho')]
    exact layoutStep_owned_other (h o List.mem_cons_self).symm s

/-- The directories after the script, or after a first part of it. -/
def ownedAfter (chown : Text → ℕ × ℕ → Option (ℕ × ℕ)) (owned : Text → Option (ℕ × ℕ))
    (owners : List (Text × Text)) : Layout := runScript chown (.fresh owned) (layoutScript owners)

/-- **The directory owner and the substituted ids (proved).**  A directory that the script finds with
the owner `0:0`, or makes, and gives to the default owner, belongs to the two numbers that are
rendered exactly when the owner text names both, or is zero.  `done` is what the script has done since,
to other directories. -/
theorem owned_as_rendered_iff (hchown : Chowns chown) {limits : Limits} {ctx : Ctx} {g : Guest}
    {uid gid dir : Text} {before done rest : List (Text × Text)} {owned : Text → Option (ℕ × ℕ)}
    (hvolumes : volumes g.read.doc.spec limits = .ok g.volumes)
    (hsplit : splitOwner (g.owner ctx) = .ok (uid, gid))
    (hrange : parseNat uid < 2 ^ 32 - 1 ∧ parseNat gid < 2 ^ 32 - 1)
    (howners : owners ctx g = before ++ (dir, g.owner ctx) :: (done ++ rest))
    (hdone : ∀ o ∈ done, o.1 ≠ dir) (hreached : (ownedAfter chown owned before).failed = false)
    (hroot : ((ownedAfter chown owned before).owned dir).getD (0, 0) = (0, 0)) :
    (∃ vs, vars ctx g = .ok vs ∧ ("PVE_UID".toList, uid) ∈ vs.map ∧ ("PVE_GID".toList, gid) ∈ vs.map ∧
      (ownedAfter chown owned (before ++ (dir, g.owner ctx) :: done)).owned dir
        = some (parseNat uid, parseNat gid)) ↔ NamesBoth (g.owner ctx) := by
  have hquote := quote_not_mem_owners hvolumes hsplit
  rw [howners] at hquote
  have hbefore : ∀ o ∈ before, '\'' ∉ o.1 ∧ '\'' ∉ o.2 :=
    fun o ho => hquote o (List.mem_append_left _ ho)
  have hthrough : ∀ o ∈ before ++ (dir, g.owner ctx) :: done, '\'' ∉ o.1 ∧ '\'' ∉ o.2 := by
    intro o ho
    refine hquote o ?_
    rw [← List.cons_append, ← List.append_assoc]
    exact List.mem_append_left _ ho
  rw [ownedAfter, runScript_layoutScript hbefore] at hreached hroot
  have hfinal : (ownedAfter chown owned (before ++ (dir, g.owner ctx) :: done)).owned dir
      = some (parseNat uid, if ':' ∈ g.owner ctx then parseNat gid else 0) := by
    rw [ownedAfter, runScript_layoutScript hthrough, List.foldl_append, List.foldl_cons,
      foldl_owned_other hdone]
    exact layoutStep_root hreached hroot (chown_root hchown hsplit hrange)
  have hvars : vars ctx g = .ok { vmid := g.vmid, uid, gid, name := g.config.hostname.getD []
                                  project := g.project } := by
    rw [vars, hsplit]
    rfl
  rw [hfinal]
  constructor
  · rintro ⟨vs, -, -, -, hids⟩
    obtain ⟨-, hgid⟩ := Prod.mk.inj (Option.some.inj hids)
    by_cases hcolon : ':' ∈ g.owner ctx
    · exact .inl hcolon
    · obtain ⟨-, -, hboth | ⟨-, -, hgroup⟩⟩ := splitOwner_cases hsplit
      · exact absurd (hboth ▸ List.mem_append_right _ List.mem_cons_self) hcolon
      · rw [if_neg hcolon] at hgid
        exact .inr (hgroup ▸ hgid.symm)
  · intro hnames
    refine ⟨_, hvars, by simp [Vars.map], by simp [Vars.map], ?_⟩
    by_cases hcolon : ':' ∈ g.owner ctx
    · rw [if_pos hcolon]
    · obtain ⟨-, -, hboth | ⟨-, -, hgroup⟩⟩ := splitOwner_cases hsplit
      · exact absurd (hboth ▸ List.mem_append_right _ List.mem_cons_self) hcolon
      · rw [if_neg hcolon, ← hgroup, hnames.resolve_left hcolon]

/-! ### Two owners -/

instance (t : Text) : Decidable (IsId t) := inferInstanceAs (Decidable (_ ∧ _))

/-- A `chown` that knows numbers only. -/
def numericChown (owner : Text) (ids : ℕ × ℕ) : Option (ℕ × ℕ) :=
  match Words.splitOnce ':' owner with
  | some (u, g) => if IsId u ∧ IsId g then some (parseNat u, parseNat g) else none
  | none => if IsId owner then some (parseNat owner, ids.2) else none

theorem colon_not_mem_of_isId {t : Text} (h : IsId t) : ':' ∉ t := fun hc =>
  absurd (List.all_eq_true.mp h.1.2 _ hc) (by decide)

theorem numericChown_chowns : Chowns numericChown where
  both := by
    intro u g ids hu hg
    rw [numericChown, Words.splitOnce_append g (colon_not_mem_of_isId hu)]
    exact if_pos ⟨hu, hg⟩
  user := by
    intro u ids hu
    rw [numericChown, Words.splitOnce_eq_none_iff.mpr (colon_not_mem_of_isId hu)]
    exact if_pos hu

/-- A guest with one volume, whose document has the owner given. -/
def ownedGuest (owner : Text) : Guest where
  config := emptyConfig 105
  read := { vmid := 105, text := [], digest := []
            doc := { stack := { owner := some owner }
                     policy := .default
                     spec := .mapping [(.string "volumes", .mapping [(.string "cache", .null)])] } }
  volumes := [{ name := "cache", kind := .plain, owner := none, backup := true }]

def pveCtx : Ctx := { node := "pve", config := .default, tag := none }

theorem ownedGuest_volumes (owner : Text) :
    volumes (ownedGuest owner).read.doc.spec Config.default.limits = .ok (ownedGuest owner).volumes :=
  rfl

theorem ownedGuest_owners (owner : Text) : owners pveCtx (ownedGuest owner)
    = ([] : List (Text × Text))
      ++ (("/opt/stack/volumes/cache" : Text), (ownedGuest owner).owner pveCtx) :: ([] ++ []) := rfl

/-- Nothing is there yet: the script makes the directory, and reaches it. -/
theorem nothing_before : (ownedAfter numericChown (fun _ => none) []).failed = false ∧
    ((ownedAfter numericChown (fun _ => none) []).owned "/opt/stack/volumes/cache").getD (0, 0)
      = (0, 0) := by
  have hquote : ∀ o ∈ ([] : List (Text × Text)), '\'' ∉ o.1 ∧ '\'' ∉ o.2 := nofun
  rw [ownedAfter, runScript_layoutScript hquote]
  exact ⟨rfl, by decide⟩

/-- `33:34` is rendered as two numbers, and the directory gets both. -/
theorem owned_as_rendered_pair :
    (ownedAfter numericChown (fun _ => none) [("/opt/stack/volumes/cache", "33:34")]).owned
      "/opt/stack/volumes/cache" = some (33, 34) := by
  have hsplit : splitOwner ((ownedGuest "33:34").owner pveCtx) = .ok ("33", "34") :=
    eq_ok_of_toOption (by decide)
  have huid : parseNat "33" = 33 := by decide
  have hgid : parseNat "34" = 34 := by decide
  have hrange : parseNat "33" < 2 ^ 32 - 1 ∧ parseNat "34" < 2 ^ 32 - 1 := by
    rw [huid, hgid]
    omega
  have hiff := @owned_as_rendered_iff numericChown numericChown_chowns _ _ _ _ _ _ [] [] []
    (fun _ => none) (ownedGuest_volumes "33:34") hsplit hrange (ownedGuest_owners "33:34") nofun
    nothing_before.1 nothing_before.2
  obtain ⟨_, -, -, -, h⟩ := hiff.mpr (.inl (by decide))
  have howner : (ownedGuest "33:34").owner pveCtx = "33:34" := rfl
  rw [huid, hgid, howner, List.nil_append] at h
  exact h

/-- **A number alone.**  `1000` is rendered as the user and as the group; the directory, which the
script made, stays in the group of root. -/
theorem not_owned_as_rendered :
    Chowns numericChown ∧ splitOwner ((ownedGuest "1000").owner pveCtx) = .ok ("1000", "1000") ∧
      owners pveCtx (ownedGuest "1000") = [("/opt/stack/volumes/cache".toList, "1000".toList)] ∧
      ((ownedAfter numericChown (fun _ => none) []).owned "/opt/stack/volumes/cache").getD (0, 0)
        = (0, 0) ∧
      (ownedAfter numericChown (fun _ => none) (owners pveCtx (ownedGuest "1000"))).owned
        "/opt/stack/volumes/cache" = some (1000, 0) := by
  have hsplit : splitOwner ((ownedGuest "1000").owner pveCtx) = .ok ("1000", "1000") :=
    eq_ok_of_toOption (by decide)
  refine ⟨numericChown_chowns, hsplit, rfl, nothing_before.2, ?_⟩
  rw [ownedAfter, runScript_layoutScript
    (quote_not_mem_owners (ownedGuest_volumes "1000") hsplit)]
  have hroot : (((Layout.fresh fun _ => none).made [VOLUMES_DIR, FACTS_DIR]).owned
      "/opt/stack/volumes/cache").getD (0, 0) = (0, 0) := by decide
  have hids : numericChown "1000" (0, 0) = some (1000, 0) := by decide
  exact layoutStep_root rfl hroot hids

end PveCompose
