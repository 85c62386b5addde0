import PveCompose.Session
import PveCompose.Lib.Shell

/-!
# Command lines (`stack.rs`, `main.rs`)

Two texts are written for a shell: what a human typed, quoted word by word, for the `/bin/sh -c` of a
guest or the login shell of another node; and the script of `ensure_layout`, with the names and owners
of a document between its single quotes.

* `readsAs_shellQuote` — **PROVED**: a quoted text is read as one word, and as that text;
* `args_arrive` — **PROVED**: what was typed is what `docker compose` and the other node are given;
* `layout_commands` — **PROVED**: a document puts directories and owners in the script, and no
  command.
-/

namespace PveCompose

open Programs Shell

/-! ### Quoting -/

/-- A text that is not quoted. -/
def Unquoted (s : Text) : Prop := s ≠ [] ∧ s.all (fun c => c.isAlphanum || "-_./:=@,".toList.contains c)

instance (s : Text) : Decidable (Unquoted s) := inferInstanceAs (Decidable (_ ∧ _))

theorem Unquoted.not_special {s : Text} (h : Unquoted s) : ∀ c ∈ s, c ∉ special := by
  have hspecial : ∀ c ∈ special, (c.isAlphanum || "-_./:=@,".toList.contains c) = false := by
    simp [special, lexical, blanks, operatorChars]
  intro c hc hs
  exact absurd (List.all_eq_true.mp h.2 c hc) (by rw [hspecial c hs]; exact Bool.false_ne_true)

theorem not_lexical_of_not_special {s : Text} (h : ∀ c ∈ s, c ∉ special) : ∀ c ∈ s, c ∉ lexical :=
  fun c hc hl => h c hc (List.mem_append_left _ hl)

/-- The word a quoted text is read as. -/
def quotedParts (s : Text) : List Shell.Part := if Unquoted s then s.map .bare else s.map .quoted

theorem literal?_quotedParts (s : Text) : (Token.word (quotedParts s)).literal? = some s := by
  by_cases h : Unquoted s
  · rw [quotedParts, if_pos h]
    exact literal?_bare h.not_special
  · rw [quotedParts, if_neg h]
    exact literal?_quoted s

theorem replace_quote (c : Char) (s new : Text) : replace (c :: s) "'" new
    = if c = '\'' then new ++ replace s "'" new else c :: replace s "'" new := by
  have hstarts : "'".toList.isPrefixOf (c :: s) = decide (c = '\'') := by
    show ('\'' == c && true) = _
    rw [Bool.and_true, beq_eq_decide, decide_eq_decide]
    exact eq_comm
  show (if "'".toList.isPrefixOf (c :: s) then new ++ replaceFrom "'" new 0 s
    else c :: replaceFrom "'" new 0 s) = _
  rw [hstarts]
  by_cases hc : c = '\''
  · rw [decide_eq_true hc, if_pos rfl, if_pos hc]
    rfl
  · rw [decide_eq_false hc, if_neg Bool.false_ne_true, if_neg hc]
    rfl

/-- Inside single quotes the text comes out as it went in: a quote of its own closes them, stands
escaped, and opens them again. -/
theorem run_replace_quote (o : List Frame) (d : List Token) (w : List Shell.Part) (n : ℕ) (s : Text) :
    Shell.run ⟨o, ⟨d, some w, false, n⟩, .single⟩ (replace s "'" "'\\''")
      = ⟨o, ⟨d, some (w ++ s.map .quoted), false, n⟩, .single⟩ := by
  induction s generalizing w with
  | nil => rw [List.map_nil, List.append_nil]; rfl
  | cons c s ih =>
    have hmap : w ++ (c :: s).map Shell.Part.quoted = (w ++ [.quoted c]) ++ s.map .quoted := by
      rw [List.append_assoc]
      rfl
    rw [replace_quote, hmap]
    by_cases hc : c = '\''
    · subst hc
      rw [if_pos rfl, run_append]
      exact ih (w ++ [.quoted '\''])
    · have hstep : step ⟨o, ⟨d, some w, false, n⟩, .single⟩ c
          = ⟨o, ⟨d, some (w ++ [.quoted c]), false, n⟩, .single⟩ := if_neg hc
      rw [if_neg hc, Shell.run_cons, hstep]
      exact ih (w ++ [.quoted c])

/-- **A quoted text is read as one word (proved).** -/
theorem readsAs_shellQuote (s : Text) : ReadsAs (shellQuote s) (quotedParts s) := by
  by_cases h : Unquoted s
  · have hquote : shellQuote s = s := if_pos h
    rw [hquote, quotedParts, if_pos h]
    exact readsAs_bare h.1 (not_lexical_of_not_special h.not_special)
  · have hquote : shellQuote s = '\'' :: replace s "'" "'\\''" ++ ['\''] := if_neg h
    intro o d n
    rw [hquote, quotedParts, if_neg h, run_append]
    show Shell.run (Shell.run ⟨o, ⟨d, some [], false, n⟩, .single⟩ _) ['\''] = _
    rw [run_replace_quote, List.nil_append]
    rfl

/-- What is typed, as one text. -/
def typed (args : List Text) : Text := List.intercalate " " (args.map shellQuote)

/-- Typed words after the tokens of a command already read. -/
theorem tokens_typed (d : List Token) (args : List Text) :
    (Shell.run ⟨[], ⟨d, none, false, 0⟩, .plain⟩ (typed args)).tokens
      = some (d ++ args.map fun a => .word (quotedParts a)) := by
  have hreads : ∀ a ∈ args, ReadsAs (shellQuote a) (quotedParts a) := fun a _ => readsAs_shellQuote a
  obtain ⟨f, hrun, hdouble, -, hfinish⟩ := run_words hreads [] d 0
  have htyped : typed args = List.intercalate [' '] (args.map shellQuote) := rfl
  rw [htyped, hrun, State.tokens, if_pos ⟨rfl, hdouble⟩]
  show some f.finish.done = _
  rw [hfinish]

theorem literal?_typed (args : List Text) :
    (args.map fun a => Token.word (quotedParts a)).mapM Token.literal? = some args := by
  rw [mapM_literal? literal?_quotedParts args, List.map_id']

/-! ### The command line typed -/

/-- The script of `passthrough`. -/
def passthroughScript (args : List Text) : Text := composeCommand ++ " " ++ typed args

theorem only_passthrough (vmid : ℕ) (args : List Text) :
    Only (· = Cmd.exec vmid (passthroughScript args)) (passthrough vmid args).run := by
  have hcmd : (· = Cmd.exec vmid (passthroughScript args))
      (Cmd.exec vmid (composeCommand ++ " " ++ List.intercalate " " (args.map shellQuote))) := rfl
  refine only_bind (only_issue (S := sig) hcmd id) fun out => ?_
  split_ifs
  · exact only_ofExcept _
  · exact only_pure _

/-- `forward_if_remote`: the command that runs the line on the guest's node; `ssh` is PVE's own
command for it. -/
def forwardCommand (ssh argv : List Text) : Text × List Text :=
  (ssh.headD [], ssh.tail ++ ["-t".toList, "pve-compose " ++ typed argv])

/-- The tokens of `cd /opt/stack && docker compose`. -/
def composeTokens : List Token :=
  [bareWord "cd", bareWord STACK_DIR, .operator "&&".toList, bareWord "docker", bareWord "compose"]

/-- **What was typed arrives (proved)**: quoted and joined it is read as the same words, by the shell
`docker compose` is run from, and by the shell of another node. -/
theorem args_arrive (args : List Text) :
    words (typed args) = some args ∧
      (∀ vmid, Only (· = Cmd.exec vmid (passthroughScript args)) (passthrough vmid args).run) ∧
      (∃ tokens, lex (passthroughScript args) = some (composeTokens ++ tokens) ∧
        tokens.mapM Token.literal? = some args) ∧
      ∀ ssh, ∃ remote, (forwardCommand ssh args).2.getLast? = some remote ∧
        words remote = some ("pve-compose".toList :: args) := by
  refine ⟨?_, fun vmid => only_passthrough vmid args, ⟨_, ?_, literal?_typed args⟩, fun ssh => ?_⟩
  · rw [words, lex, Frame.empty, tokens_typed []]
    exact literal?_typed args
  · have hscript : passthroughScript args = "cd".toList ++ ' ' :: (STACK_DIR ++ ' '
        :: (['&', '&', ' '] ++ ("docker".toList ++ ' ' :: ("compose".toList ++ ' ' :: typed args)))) := rfl
    rw [lex, Frame.empty, hscript, run_bareWord rfl, run_bareWord rfl, run_append]
    show (Shell.run ⟨[], ⟨_, none, false, 0⟩, .plain⟩ _).tokens = _
    rw [run_bareWord rfl, run_bareWord rfl]
    exact tokens_typed composeTokens args
  · refine ⟨"pve-compose" ++ ' ' :: typed args, ?_, ?_⟩
    · rw [forwardCommand, List.getLast?_append]
      rfl
    rw [words, lex, Frame.empty, run_bareWord rfl, tokens_typed]
    show (bareWord "pve-compose" :: args.map fun a => Token.word (quotedParts a)).mapM _ = _
    rw [List.mapM_cons, literal?_typed]
    rfl

/-! ### The script of the layout -/

/-- What the script of `ensure_layout` says of one directory. -/
def layoutOne (o : Text × Text) : Text :=
  " mkdir -p '".toList ++ o.1 ++ "'; if [ \"$(stat -c %u:%g '" ++ o.1
    ++ "')\" = '0:0' ]; then chown '" ++ o.2 ++ "' '" ++ o.1 ++ "'; fi;"

/-- The script of `ensure_layout`. -/
def layoutScript (owners : List (Text × Text)) : Text :=
  "set -e; mkdir -p ".toList ++ VOLUMES_DIR ++ " " ++ FACTS_DIR ++ "; chmod 0755 " ++ STACK_DIR ++ ";"
    ++ owners.flatMap layoutOne

theorem only_ensureLayout (vmid : ℕ) (owners : List (Text × Text)) :
    Only (· = Cmd.exec vmid (layoutScript owners)) (ensureLayout vmid owners).run := by
  have hexec : ∀ script, Only (· = Cmd.exec vmid script) (exec vmid script).run := by
    intro script
    have hcmd : (· = Cmd.exec vmid script) (Cmd.exec vmid script) := rfl
    refine only_bind (only_issue (S := sig) hcmd id) fun out => ?_
    split_ifs
    · exact only_ofExcept _
    · exact only_pure _
  have hall : ensureLayout vmid owners
      = (do let _ ← exec vmid (layoutScript owners); pure ()) := rfl
  rw [hall]
  exact only_bind (hexec _) fun _ => only_pure _

/-- A word as it is written, and what it is read as. -/
abbrev Spelled := Text × List Shell.Part

def bare (t : Text) : Spelled := (t, t.map .bare)

def single (t : Text) : Spelled := ('\'' :: t ++ ['\''], t.map .quoted)

def statWords (dir : Text) : List Spelled := [bare "stat", bare "-c", bare "%u:%g", single dir]

/-- `"$(stat -c %u:%g '<dir>')"`. -/
def statWord (dir : Text) : Spelled :=
  (['"', '$', '('] ++ List.intercalate [' '] ((statWords dir).map Prod.fst) ++ [')', '"'],
    [.command false ((statWords dir).map fun w => .word w.2)])

/-- What is done to one directory. -/
def volumeCommands (dir owner : Text) : List (List Spelled) :=
  [[bare "mkdir", bare "-p", single dir],
    [bare "if", bare "[", statWord dir, bare "=", single "0:0", bare "]"],
    [bare "then", bare "chown", single owner, single dir],
    [bare "fi"]]

/-- What is done once. -/
def layoutCommands : List (List Spelled) :=
  [[bare "set", bare "-e"], [bare "mkdir", bare "-p", bare VOLUMES_DIR, bare FACTS_DIR],
    [bare "chmod", bare "0755", bare STACK_DIR]]

/-- The tokens of commands, each ended by a `;`. -/
def commandTokens (cs : List (List Spelled)) : List Token :=
  cs.flatMap fun c => (c.map fun w => .word w.2) ++ [.operator [';']]

theorem layoutOne_eq (o : Text × Text) : layoutOne o = (volumeCommands o.1 o.2).flatMap fun c =>
    ' ' :: List.intercalate [' '] (c.map Prod.fst) ++ [';'] := by
  have hbare : ∀ t, (bare t).1 = t := fun _ => rfl
  have hsingle : ∀ t, (single t).1 = '\'' :: (t ++ ['\'']) := fun _ => rfl
  have hstat : (statWord o.1).1 = '"' :: '$' :: '('
      :: (List.intercalate [' '] ((statWords o.1).map Prod.fst) ++ [')', '"']) := rfl
  unfold layoutOne volumeCommands
  simp only [hbare, hsingle, hstat, statWords, List.flatMap_cons, List.flatMap_nil, List.map_cons,
    List.map_nil, List.intercalate_cons_cons, List.intercalate_singleton, List.append_assoc,
    List.cons_append]
  rfl

theorem layoutScript_eq (owners : List (Text × Text)) : layoutScript owners
    = List.intercalate [' '] ([bare "set", bare "-e"].map Prod.fst) ++ [';']
      ++ (layoutCommands.tail ++ owners.flatMap fun o => volumeCommands o.1 o.2).flatMap fun c =>
        ' ' :: List.intercalate [' '] (c.map Prod.fst) ++ [';'] := by
  have hfixed : "set -e; mkdir -p ".toList ++ VOLUMES_DIR ++ " " ++ FACTS_DIR ++ "; chmod 0755 "
        ++ STACK_DIR ++ ";"
      = List.intercalate [' '] ([bare "set", bare "-e"].map Prod.fst) ++ [';']
        ++ layoutCommands.tail.flatMap fun c =>
          ' ' :: List.intercalate [' '] (c.map Prod.fst) ++ [';'] := by
    decide
  unfold layoutScript
  rw [List.flatMap_append, List.flatMap_assoc, ← funext layoutOne_eq, ← List.append_assoc, ← hfixed]

theorem readsAs_single {t : Text} (h : '\'' ∉ t) : ReadsAs (single t).1 (single t).2 := readsAs_quote h

theorem readsAs_bareText {t : Text} (h : isBare t = true) : ReadsAs (bare t).1 (bare t).2 :=
  readsAs_of_isBare h

theorem readsAs_statWord {dir : Text} (h : '\'' ∉ dir) : ReadsAs (statWord dir).1 (statWord dir).2 := by
  refine readsAs_command fun w hw => ?_
  simp only [statWords, List.mem_cons, List.not_mem_nil, or_false] at hw
  rcases hw with rfl | rfl | rfl | rfl
  · exact readsAs_bareText rfl
  · exact readsAs_bareText rfl
  · exact readsAs_bareText rfl
  · exact readsAs_single h

theorem readsAs_layoutCommands : ∀ c ∈ layoutCommands, ∀ w ∈ c, ReadsAs w.1 w.2 := by
  unfold layoutCommands
  simp only [List.forall_mem_cons]
  exact ⟨⟨readsAs_bareText rfl, readsAs_bareText rfl, nofun⟩,
    ⟨readsAs_bareText rfl, readsAs_bareText rfl, readsAs_bareText rfl, readsAs_bareText rfl, nofun⟩,
    ⟨readsAs_bareText rfl, readsAs_bareText rfl, readsAs_bareText rfl, nofun⟩, nofun⟩

theorem readsAs_volumeCommands {dir owner : Text} (hdir : '\'' ∉ dir) (howner : '\'' ∉ owner) :
    ∀ c ∈ volumeCommands dir owner, ∀ w ∈ c, ReadsAs w.1 w.2 := by
  have hd := readsAs_single hdir
  have ho := readsAs_single howner
  have hzero : ReadsAs (single "0:0").1 (single "0:0").2 := readsAs_single (by decide)
  unfold volumeCommands
  simp only [List.forall_mem_cons]
  exact ⟨⟨readsAs_bareText rfl, readsAs_bareText rfl, hd, nofun⟩,
    ⟨readsAs_bareText rfl, readsAs_bareText rfl, readsAs_statWord hdir, readsAs_bareText rfl, hzero,
      readsAs_bareText rfl, nofun⟩,
    ⟨readsAs_bareText rfl, readsAs_bareText rfl, ho, hd, nofun⟩, ⟨readsAs_bareText rfl, nofun⟩, nofun⟩

/-- Every word of the commands is read as it is meant. -/
theorem readsAs_spelled {owners : List (Text × Text)} (h : ∀ o ∈ owners, '\'' ∉ o.1 ∧ '\'' ∉ o.2) :
    ∀ c ∈ layoutCommands ++ owners.flatMap fun o => volumeCommands o.1 o.2,
      ∀ w ∈ c, ReadsAs w.1 w.2 := by
  intro c hc
  rcases List.mem_append.mp hc with hc | hc
  · exact readsAs_layoutCommands c hc
  · obtain ⟨o, ho, hc⟩ := List.mem_flatMap.mp hc
    exact readsAs_volumeCommands (h o ho).1 (h o ho).2 c hc

/-- **The script is its commands (proved)**, whatever the directories and the owners, as long as none
holds a quote. -/
theorem lex_layoutScript {owners : List (Text × Text)} (h : ∀ o ∈ owners, '\'' ∉ o.1 ∧ '\'' ∉ o.2) :
    lex (layoutScript owners)
      = some (commandTokens (layoutCommands ++ owners.flatMap fun o => volumeCommands o.1 o.2)) := by
  rw [layoutScript_eq]
  exact lex_commands (readsAs_spelled h)

/-! ### Documents -/

/-- What an accepted owner is: two numbers, or one for both. -/
theorem splitOwner_cases {owner u g : Text} (h : splitOwner owner = .ok (u, g)) :
    (u ≠ [] ∧ u.all isDigit = true) ∧ (g ≠ [] ∧ g.all isDigit = true) ∧
      (owner = u ++ ':' :: g ∨ ':' ∉ owner ∧ owner = u ∧ owner = g) := by
  unfold splitOwner at h
  cases hcut : Words.splitOnce ':' owner with
  | none =>
    rw [hcut] at h
    simp only [Option.getD_none] at h
    split_ifs at h with hbad
    · exact absurd h bail_ne_ok
    · cases h
      exact ⟨by tauto, by tauto, .inr ⟨Words.splitOnce_eq_none_iff.mp hcut, rfl, rfl⟩⟩
  | some p =>
    rw [hcut] at h
    simp only [Option.getD_some] at h
    split_ifs at h with hbad
    · exact absurd h bail_ne_ok
    · cases h
      exact ⟨by tauto, by tauto, .inl (Words.splitOnce_eq_some hcut).1⟩

/-- An owner that was accepted holds no quote. -/
theorem quote_not_mem_owner {owner : Text} {ug : Text × Text} (h : splitOwner owner = .ok ug) :
    '\'' ∉ owner := by
  have hdigits : ∀ {t : Text}, t.all isDigit = true → '\'' ∉ t := fun ht hq =>
    absurd (List.all_eq_true.mp ht _ hq) (by decide)
  obtain ⟨⟨-, hu⟩, ⟨-, hg⟩, hboth | ⟨-, hone, -⟩⟩ := splitOwner_cases h
  · rw [hboth, List.mem_append, List.mem_cons]
    rintro (h' | h' | h')
    · exact hdigits hu h'
    · exact absurd h' (by decide)
    · exact hdigits hg h'
  · rw [hone]
    exact hdigits hu

/-- Every owner a volume comes with was held against `split_owner`. -/
theorem volumes_owner {spec : Value} {limits : Limits} {vs : List Volume}
    (h : volumes spec limits = .ok vs) : ∀ v ∈ vs, ∀ o ∈ v.owner, ∃ ug, splitOwner o = .ok ug := by
  intro v hv o ho
  obtain ⟨e, he⟩ := of_mem_volumes h hv
  obtain ⟨name, -, -, -, -, hread⟩ := readEntry_some he
  obtain ⟨ox, -, hread⟩ := bind_eq_ok.mp hread
  cases ox with
  | none =>
    cases hread
    cases ho
  | some x =>
    obtain ⟨_, howner, hread⟩ := bind_eq_ok.mp hread
    obtain ⟨kind, -, hread⟩ := bind_eq_ok.mp hread
    cases hread
    have hcheck := forM_eq_ok_iff.mp howner o (Option.mem_toList.mpr ho)
    obtain ⟨ug, hug, -⟩ := bind_eq_ok.mp hcheck
    exact ⟨ug, withContext_eq_ok.mp hug⟩

theorem quote_not_mem_dir {v : Volume} (h : validVolumeName v.name = true) : '\'' ∉ v.dir := by
  intro hq
  rcases List.mem_append.mp hq with hq | hq
  · exact absurd hq (by decide)
  · rcases List.mem_cons.mp hq with hq | hq
    · exact absurd hq (by decide)
    · exact absurd (isNameChar_of_mem h _ hq) (by decide)

/-- The owners `docker_apply_guest` asks for. -/
def owners (ctx : Ctx) (g : Guest) : List (Text × Text) :=
  g.volumes.map fun v => (v.dir, v.owner.getD (g.owner ctx))

/-- No owner and no directory of an accepted guest holds a quote. -/
theorem quote_not_mem_owners {limits : Limits} {ctx : Ctx} {g : Guest} {ug : Text × Text}
    (hvolumes : volumes g.read.doc.spec limits = .ok g.volumes)
    (hsplit : splitOwner (g.owner ctx) = .ok ug) :
    ∀ o ∈ owners ctx g, '\'' ∉ o.1 ∧ '\'' ∉ o.2 := by
  intro o ho
  obtain ⟨v, hv, rfl⟩ := List.mem_map.mp ho
  refine ⟨quote_not_mem_dir (volumes_allowed hvolumes v hv).name, ?_⟩
  show '\'' ∉ v.owner.getD _
  cases hvo : v.owner with
  | none => exact quote_not_mem_owner hsplit
  | some o =>
    obtain ⟨_, hug⟩ := volumes_owner hvolumes v hv o hvo
    exact quote_not_mem_owner hug

/-- The owner of an accepted guest is one, if the node's own is. -/
theorem splitOwner_owner {fromYaml : Text → Result Doc} {ctx : Ctx} {g : Guest}
    (hdoc : parse fromYaml g.read.text = .ok g.read.doc)
    (howner : ∃ ug, splitOwner ctx.config.defaults.owner = .ok ug) :
    ∃ ug, splitOwner (g.owner ctx) = .ok ug := by
  obtain ⟨-, -, hstack⟩ := parse_ok hdoc
  unfold Guest.owner
  cases ho : g.read.doc.stack.owner with
  | none => exact howner
  | some o => exact hstack o ho

/-- **A document becomes no command (proved)**: of an accepted document and its accepted volumes the
shell reads the fixed commands, and for each volume the four of it, in which the directory and the
owner stand as one word each. -/
theorem layout_commands {fromYaml : Text → Result Doc} {limits : Limits} {ctx : Ctx} {g : Guest}
    (hdoc : parse fromYaml g.read.text = .ok g.read.doc)
    (hvolumes : volumes g.read.doc.spec limits = .ok g.volumes)
    (howner : ∃ ug, splitOwner ctx.config.defaults.owner = .ok ug) :
    Only (· = Cmd.exec g.vmid (layoutScript (owners ctx g))) (ensureLayout g.vmid (owners ctx g)).run ∧
      lex (layoutScript (owners ctx g)) = some (commandTokens (layoutCommands
        ++ (owners ctx g).flatMap fun o => volumeCommands o.1 o.2)) ∧
      ∀ t : Text, (Token.word (single t).2).literal? = some t := by
  obtain ⟨ug, hsplit⟩ := splitOwner_owner hdoc howner
  exact ⟨only_ensureLayout _ _, lex_layoutScript (quote_not_mem_owners hvolumes hsplit),
    literal?_quoted⟩

/-- A volume `cache` of `33:33`. -/
def cacheDoc : Doc where
  stack := { owner := none }
  policy := .default
  spec := .mapping [(.string "volumes", .mapping [(.string "cache", .mapping
    [(.string "x-pve", .mapping [(.string "owner", .string "33:33")])])])]

def cacheGuest : Guest where
  config := emptyConfig 105
  read := { vmid := 105, text := [], digest := [], doc := cacheDoc }
  volumes := [{ name := "cache", kind := .plain, owner := some "33:33", backup := true }]

theorem layout_commands_cache :
    lex (layoutScript [("/opt/stack/volumes/cache".toList, "33:33".toList)])
      = some (commandTokens (layoutCommands ++ volumeCommands "/opt/stack/volumes/cache" "33:33")) :=
  (@layout_commands (fun _ => .ok cacheDoc) Config.default.limits
    { node := "pve", config := .default, tag := none } cacheGuest rfl
    (eq_ok_of_toOption (by decide)) ⟨_, rfl⟩).2.1

end PveCompose
