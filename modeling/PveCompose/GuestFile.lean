import PveCompose.Apply
import PveCompose.Lib.Cut
import PveCompose.Lib.Utf8

/-!
# Files inside a guest (`pct.rs`, `stack.rs`)

The tool keeps two files in a guest, the compose file and the facts file (`Target`).  `writeFile`
pushes the content to a sibling first and renames it over the target; `readFile` reads no more than
one byte past `MAX_READ` and refuses what is longer.  A push may leave any part of the content in
the sibling; a rename is atomic, and may have been done when its command is reported as failed.

* `wp_writeFile` — **PROVED, the invariant of a write**: whenever a command of it is issued and at
  its end, the target holds its old content or the new one, and nothing but the target and its
  sibling has changed;
* `write_old_or_new` — **PROVED**: so it is wherever a write is cut, over any sequence of writes; a
  write that is not cut succeeds from whatever was left behind;
* `written_read_iff` — **PROVED**: what was written is read back exactly when it is no longer than
  `MAX_READ` bytes.
-/

namespace PveCompose

open Programs Utf8

/-! ### The commands -/

/-- What `write_file` and `read_file` run, on the node and in the guest. -/
inductive FileOp where
  | hostCopy : Bytes → FileOp
  | makeDir : Text → FileOp
  | push : Bytes → Text → Text → FileOp
  | remove : Text → FileOp
  | move : Text → Text → FileOp
  | head : Text → ℕ → FileOp

abbrev FileOp.Answer : FileOp → Type
  | .head _ _ => Result Output
  | _ => Result Unit

abbrev guestSig : Sig := ⟨FileOp, FileOp.Answer⟩

/-- `rsplit_once('/')`, for the paths this tool writes. -/
def splitPath (path : Text) : Option (Text × Text) :=
  (Words.splitOnce '/' path.reverse).bind fun nd =>
    let (dir, name) := (nd.2.reverse, nd.1.reverse)
    if path.head? = some '/' ∧ dir ≠ [] ∧ name ≠ [] ∧ '\'' ∉ path ∧ ¬ "/../".toList <:+: path ∧
        ¬ "/./".toList <:+: path then some (dir, name) else none

/-- The sibling a content is pushed to. -/
def stagedPath (dir name : Text) : Text := dir ++ "/." ++ name ++ ".pve-compose-tmp"

/-- `write_file`. -/
def writeFile (vmid : ℕ) (path : Text) (content : Bytes) (perms : Text) :
    Fallible guestSig Error Unit :=
  match splitPath path with
  | none => .throw ⟨[path ++ ": not a path this tool writes"]⟩
  | some (dir, name) => do
    Fallible.issue (S := guestSig) (.hostCopy content) id
    Fallible.issue (S := guestSig) (.makeDir dir) id
    let pushed ← (Fallible.issue (S := guestSig) (.push content (stagedPath dir name) perms)
      id).attempt
    match pushed with
    | .error e => do
      let _ ← (Fallible.issue (S := guestSig) (.remove (stagedPath dir name)) id).attempt
      .throw ⟨("guest " ++ dec vmid ++ ": cannot push " ++ path) :: e.chain⟩
    | .ok _ => Fallible.issue (S := guestSig) (.move (stagedPath dir name) path) id

/-- The most of a guest file this tool reads. -/
def MAX_READ : ℕ := 2 ^ 20

/-- What `read_file` makes of the answer of its script. -/
def readAnswer (vmid : ℕ) (path : Text) (out : Output) : Result (Option Text) :=
  if out.status = 0 then
    if MAX_READ < (utf8 out.stdout).length then
      bail ("in guest " ++ dec vmid ++ ": " ++ path ++ " is above " ++ dec MAX_READ ++ " bytes")
    else .ok (some out.stdout)
  else if out.status = 3 then .ok none
  else bail ("in guest " ++ dec vmid ++ ": cannot read " ++ path ++ " (exit "
    ++ (Number.int out.status).text ++ "): " ++ trim out.stderr)

/-- `read_file`. -/
def readFile (vmid : ℕ) (path : Text) : Fallible guestSig Error (Option Text) :=
  Fallible.issue (S := guestSig) (.head path (MAX_READ + 1)) fun r => r >>= readAnswer vmid path

/-- The two files the tool writes. -/
inductive Target where
  | compose : Target
  | facts : Target
deriving DecidableEq

def FACTS_FILE : Text := "/opt/stack/.pve-compose/applied.yaml"

namespace Target

def path : Target → Text
  | compose => COMPOSE_FILE
  | facts => FACTS_FILE

def dir : Target → Text
  | compose => "/opt/stack"
  | facts => "/opt/stack/.pve-compose"

def name : Target → Text
  | compose => "compose.yaml"
  | facts => "applied.yaml"

def sibling (t : Target) : Text := stagedPath t.dir t.name

/-- `write_compose` and `write_facts`, once the content is a text. -/
def write (t : Target) (vmid : ℕ) (content : Bytes) : Fallible guestSig Error Unit :=
  writeFile vmid t.path content "0644"

theorem splitPath_path (t : Target) : splitPath t.path = some (t.dir, t.name) := by
  cases t <;> decide

theorem path_ne_sibling (t t' : Target) : t.path ≠ t'.sibling := by
  cases t <;> cases t' <;> decide

theorem path_inj {t t' : Target} (h : t.path = t'.path) : t = t' := by
  cases t <;> cases t' <;> first | rfl | exact absurd h (by decide)

end Target

/-- `write_facts`. -/
def writeFacts (print : Facts → Result Text) (vmid : ℕ) (facts : Facts) :
    Fallible guestSig Error Unit := do
  let text ← Fallible.ofExcept (print facts)
  Target.facts.write vmid (utf8 text)

/-- `read_facts`. -/
def readFacts (parse : Text → Result Facts) (vmid : ℕ) : Fallible guestSig Error (Option Facts) := do
  match ← readFile vmid FACTS_FILE with
  | none => pure none
  | some text => do
    let f ← Fallible.ofExcept (withContext ("guest " ++ dec vmid ++ ": " ++ FACTS_FILE
      ++ " is not a facts file") (parse text))
    pure (some f)

/-! ### The guest -/

/-- The files of a guest, by path. -/
abbrev Files := Text → Option Bytes

/-- One file replaced, or removed. -/
def Files.put (s : Files) (p : Text) (content : Option Bytes) : Files :=
  fun f => if f = p then content else s f

@[simp] theorem Files.put_self (s : Files) (p : Text) (content : Option Bytes) :
    s.put p content p = content := if_pos rfl

theorem Files.put_of_ne (s : Files) {p f : Text} (content : Option Bytes) (h : f ≠ p) :
    s.put p content f = s f := if_neg h

/-- A rename, all of it. -/
def Moved (s : Files) (a b : Text) (s' : Files) : Prop :=
  ∃ content, s a = some content ∧ s' = (s.put a none).put b (some content)

/-- What each command may do to the files of the guest, and be answered with. -/
def fileReply (s : Files) : (c : FileOp) → c.Answer → Files → Prop
  | .hostCopy _, _, s' => s' = s
  | .makeDir _, _, s' => s' = s
  | .push content p _, .ok _, s' => s' = s.put p (some content)
  | .push content p _, .error _, s' =>
    s' = s ∨ ∃ part, part <+: content ∧ s' = s.put p (some part)
  | .remove p, .ok _, s' => s' = s.put p none
  | .remove p, .error _, s' => s' = s ∨ s' = s.put p none
  | .move a b, .ok _, s' => Moved s a b s'
  | .move a b, .error _, s' => s' = s ∨ Moved s a b s'
  | .head p n, r, s' => s' = s ∧ ∀ out, r = .ok out →
    match s p with
    | some content => out.status = 0 ∧ out.stdout = lossy (content.take n)
    | none => out.status = 3

def guestWorld : World guestSig Files := ⟨fileReply⟩

/-- A command that is not cut fails only where it cannot be done: nothing is renamed that is not
there. -/
def Whole (s : Files) : (c : FileOp) → c.Answer → Prop
  | .move a _, .error _ => s a = none
  | .hostCopy _, .error _ | .makeDir _, .error _ | .push _ _ _, .error _ | .remove _, .error _
  | .head _ _, .error _ => False
  | .hostCopy _, .ok _ | .makeDir _, .ok _ | .push _ _ _, .ok _ | .remove _, .ok _
  | .move _ _, .ok _ | .head _ _, .ok _ => True

/-- The guest where no command is cut. -/
def wholeWorld : World guestSig Files :=
  ⟨fun s c r s' => fileReply s c r s' ∧ Whole s c r⟩

/-! ### A write -/

/-- The target holds its old content or the new one, and nothing but it and its sibling has
changed. -/
structure OldOrNew (t : Target) (content : Bytes) (s s' : Files) : Prop where
  target : s' t.path = s t.path ∨ s' t.path = some content
  frame : ∀ f, f ≠ t.path → f ≠ t.sibling → s' f = s f

/-- The target holds the new content, no sibling is left, and nothing else has changed. -/
structure Replaced (t : Target) (content : Bytes) (s s' : Files) : Prop where
  target : s' t.path = some content
  sibling : s' t.sibling = none
  frame : ∀ f, f ≠ t.path → f ≠ t.sibling → s' f = s f

variable {t : Target} {content : Bytes} {s s' : Files} {vmid : ℕ}

theorem oldOrNew_refl : OldOrNew t content s s := ⟨.inl rfl, fun _ _ _ => rfl⟩

/-- Whatever becomes of the sibling, the target is untouched. -/
theorem OldOrNew.put_sibling (h : OldOrNew t content s s') (c : Option Bytes) :
    OldOrNew t content s (s'.put t.sibling c) := by
  refine ⟨?_, fun f hf hf' => ?_⟩
  · rw [Files.put_of_ne _ _ (t.path_ne_sibling t)]
    exact h.target
  · rw [Files.put_of_ne _ _ hf', h.frame f hf hf']

/-- The sibling renamed over the target, once it holds the new content. -/
theorem Moved.replaced {s₁ : Files} (h : Moved s₁ t.sibling t.path s')
    (hs : s₁ t.sibling = some content) (hframe : ∀ f, f ≠ t.path → f ≠ t.sibling → s₁ f = s f) :
    Replaced t content s s' := by
  obtain ⟨c, hc, rfl⟩ := h
  rw [hs] at hc
  cases hc
  refine ⟨Files.put_self _ _ _, ?_, fun f hf hf' => ?_⟩
  · rw [Files.put_of_ne _ _ (t.path_ne_sibling t).symm, Files.put_self]
  · rw [Files.put_of_ne _ _ hf, Files.put_of_ne _ _ hf', hframe f hf hf']

theorem Replaced.oldOrNew (h : Replaced t content s s') : OldOrNew t content s s' :=
  ⟨.inr h.target, h.frame⟩

/-- **The invariant of a write (proved).** -/
theorem wp_writeFile : wp guestWorld (fun s' _ => OldOrNew t content s s') (t.write vmid content).run
    (Ends (fun _ s' => Replaced t content s s') fun _ s' => OldOrNew t content s s') s := by
  rw [Target.write, writeFile, t.splitPath_path]
  dsimp only
  rw [wp_bind, wp_issue]
  refine ⟨oldOrNew_refl, ?_⟩
  rintro (e | u) s₀ hcopy
  all_goals obtain rfl : s = s₀ := Eq.symm hcopy
  · exact oldOrNew_refl
  show wp _ _ (Fallible.run _) _ _
  rw [wp_bind, wp_issue]
  refine ⟨oldOrNew_refl, ?_⟩
  rintro (e | u) s₀ hdir
  all_goals obtain rfl : s = s₀ := Eq.symm hdir
  · exact oldOrNew_refl
  show wp _ _ (Fallible.run _) _ _
  rw [wp_bind, wp_attempt]
  refine ⟨oldOrNew_refl, ?_⟩
  rintro (e | u) s₁ hpush
  · -- the sibling is removed, or is left
    have hs₁ : OldOrNew t content s s₁ := by
      rcases hpush with rfl | ⟨part, -, rfl⟩
      · exact oldOrNew_refl
      · exact oldOrNew_refl.put_sibling _
    refine ⟨hs₁, ?_⟩
    rintro (e | u) s₂ hremove
    · rcases hremove with rfl | rfl
      · exact hs₁
      · exact hs₁.put_sibling _
    · obtain rfl : s₂ = s₁.put t.sibling none := hremove
      exact hs₁.put_sibling _
  · obtain rfl : s₁ = s.put t.sibling (some content) := hpush
    have hs₁ : OldOrNew t content s (s.put t.sibling (some content)) := oldOrNew_refl.put_sibling _
    refine ⟨hs₁, ?_⟩
    rintro (e | u) s₂ hmove
    · rcases hmove with rfl | hmoved
      · exact hs₁
      · exact (hmoved.replaced (Files.put_self _ _ _) hs₁.frame).oldOrNew
    · exact Moved.replaced hmove (Files.put_self _ _ _) hs₁.frame

/-- A write that is not cut has nothing that can fail. -/
theorem wp_writeFile_whole : wp wholeWorld (fun _ _ => True) (t.write vmid content).run
    (Ends (fun _ s' => Replaced t content s s') fun _ _ => False) s := by
  rw [Target.write, writeFile, t.splitPath_path]
  dsimp only
  rw [wp_bind, wp_issue]
  refine ⟨trivial, ?_⟩
  rintro (e | u) s₀ ⟨hcopy, hwhole⟩
  · exact hwhole
  obtain rfl : s = s₀ := Eq.symm hcopy
  show wp _ _ (Fallible.run _) _ _
  rw [wp_bind, wp_issue]
  refine ⟨trivial, ?_⟩
  rintro (e | u) s₀ ⟨hdir, hwhole⟩
  · exact hwhole
  obtain rfl : s = s₀ := Eq.symm hdir
  show wp _ _ (Fallible.run _) _ _
  rw [wp_bind, wp_attempt]
  refine ⟨trivial, ?_⟩
  rintro (e | u) s₁ ⟨hpush, hwhole⟩
  · exact False.elim hwhole
  obtain rfl : s₁ = s.put t.sibling (some content) := hpush
  have hs₁ : OldOrNew t content s (s.put t.sibling (some content)) := oldOrNew_refl.put_sibling _
  refine ⟨trivial, ?_⟩
  rintro (e | u) s₂ ⟨hmove, hwhole⟩
  · have hnone : s.put t.sibling (some content) t.sibling = none := hwhole
    rw [Files.put_self] at hnone
    cases hnone
  · exact Moved.replaced hmove (Files.put_self _ _ _) hs₁.frame

/-- A write that is not cut goes through, from whatever was left behind. -/
theorem exists_run_whole (t : Target) (content : Bytes) (s : Files) (vmid : ℕ) :
    ∃ tr s', Run wholeWorld s (t.write vmid content).run tr (.ok ()) s' := by
  rw [Target.write, writeFile, t.splitPath_path]
  have hcopy : wholeWorld.reply s (.hostCopy content) (.ok () : Result Unit) s := ⟨rfl, trivial⟩
  have hdir : wholeWorld.reply s (.makeDir t.dir) (.ok () : Result Unit) s := ⟨rfl, trivial⟩
  have hpush : wholeWorld.reply s (.push content t.sibling "0644") (.ok () : Result Unit)
      (s.put t.sibling (some content)) := ⟨rfl, trivial⟩
  have hmove : wholeWorld.reply (s.put t.sibling (some content)) (.move t.sibling t.path)
      (.ok () : Result Unit)
      (((s.put t.sibling (some content)).put t.sibling none).put t.path (some content)) :=
    ⟨⟨content, Files.put_self _ _ _, rfl⟩, trivial⟩
  exact ⟨_, _, .call hcopy (.call hdir (.call hpush (.call hmove .ret)))⟩

/-- A sequence of writes, each of them cut somewhere or done. -/
inductive Wrote : Files → List (Target × Bytes) → Files → Prop where
  | nil {s : Files} : Wrote s [] s
  | snoc {s s₁ s₂ : Files} {ws : List (Target × Bytes)} {t : Target} {content : Bytes} {vmid : ℕ} :
      Wrote s ws s₁ → Cut guestWorld s₁ (t.write vmid content).run s₂ →
      Wrote s (ws ++ [(t, content)]) s₂

theorem oldOrNew_of_cut (h : Cut guestWorld s (t.write vmid content).run s') :
    OldOrNew t content s s' := by
  refine wp_cut (P := OldOrNew t content s) (wp_mono wp_writeFile fun r s' hr => ?_) h
  cases r with
  | ok u => exact Replaced.oldOrNew hr
  | error e => exact hr

/-- **Over any sequence of writes (proved)**, a file holds what it held or a content that was
written to it, whole. -/
theorem Wrote.target {ws : List (Target × Bytes)} (h : Wrote s ws s') (t : Target) :
    s' t.path = s t.path ∨ ∃ content, (t, content) ∈ ws ∧ s' t.path = some content := by
  induction h with
  | nil => exact .inl rfl
  | @snoc s₁ s₂ ws t' content vmid _ hcut ih =>
    have hstep := oldOrNew_of_cut hcut
    have hold : s₂ t.path = s₁ t.path → s₂ t.path = s t.path ∨
        ∃ c, (t, c) ∈ ws ++ [(t', content)] ∧ s₂ t.path = some c := by
      intro heq
      rw [heq]
      rcases ih with h | ⟨c, hmem, h⟩
      · exact .inl h
      · exact .inr ⟨c, List.mem_append_left _ hmem, h⟩
    by_cases ht : t = t'
    · subst ht
      rcases hstep.target with h | h
      · exact hold h
      · exact .inr ⟨content, List.mem_append_right _ (List.mem_singleton_self _), h⟩
    · exact hold (hstep.frame _ (fun h => ht (Target.path_inj h)) (t.path_ne_sibling t'))

/-- **A guest file is always the old one or the new one (proved).** -/
theorem write_old_or_new (t : Target) (content : Bytes) (s : Files) (vmid : ℕ) :
    (∀ s', Cut guestWorld s (t.write vmid content).run s' → OldOrNew t content s s') ∧
    (∀ tr s', Run guestWorld s (t.write vmid content).run tr (.ok ()) s' → s' t.path = some content) ∧
    ((∃ tr s', Run wholeWorld s (t.write vmid content).run tr (.ok ()) s') ∧
      ∀ tr r s', Run wholeWorld s (t.write vmid content).run tr r s' →
        r = .ok () ∧ Replaced t content s s') ∧
    ∀ ws s', Wrote s ws s' → ∀ t' : Target, s' t'.path = s t'.path ∨
      ∃ content, (t', content) ∈ ws ∧ s' t'.path = some content := by
  refine ⟨fun s' => oldOrNew_of_cut, fun tr s' h => ?_, ⟨exists_run_whole t content s vmid, ?_⟩,
    fun ws s' h => h.target⟩
  · have hend := wp_run (wp_writeFile (s := s)) h
    exact Replaced.target hend
  · intro tr r s' h
    have hend := wp_run (wp_writeFile_whole (s := s)) h
    cases r with
    | ok u => exact ⟨rfl, hend⟩
    | error e => exact hend.elim

/-! ### Reading what was written -/

/-- A file that is there is read, whole and as it is, exactly when it is short enough. -/
theorem readFile_iff {path : Text} {text : Text} {tr : List (Event guestSig)}
    {r : Result (Option Text)} (hs : s path = some (utf8 text))
    (h : Run wholeWorld s (readFile vmid path).run tr r s') :
    s' = s ∧ (r = .ok (some text) ↔ (utf8 text).length ≤ MAX_READ) ∧
      (MAX_READ < (utf8 text).length → ∃ e, r = .error e) := by
  obtain ⟨a, tr', s₁, -, ⟨⟨rfl, hhead⟩, hwhole⟩, hend⟩ := run_call.mp h
  obtain ⟨-, rfl, rfl⟩ := run_ret.mp hend
  cases a with
  | error e => exact False.elim hwhole
  | ok out =>
    have hout := hhead out rfl
    rw [hs] at hout
    obtain ⟨hstatus, hstdout⟩ := hout
    have hanswer : readAnswer vmid path out = if MAX_READ < (utf8 out.stdout).length then
        bail ("in guest " ++ dec vmid ++ ": " ++ path ++ " is above " ++ dec MAX_READ ++ " bytes")
        else .ok (some out.stdout) := if_pos hstatus
    refine ⟨rfl, ?_⟩
    show (readAnswer vmid path out = _ ↔ _) ∧ (_ → ∃ e, readAnswer vmid path out = _)
    rw [hanswer]
    by_cases hlen : (utf8 text).length ≤ MAX_READ
    · have htext : out.stdout = text := by
        rw [hstdout, List.take_of_length_le (by omega), lossy_utf8]
      rw [htext, if_neg (by omega)]
      exact ⟨iff_of_true rfl hlen, fun h => absurd h (by omega)⟩
    · -- one byte past the limit was read, and reading loses none
      have hlong : MAX_READ < (utf8 out.stdout).length := by
        have hle := length_le_lossy ((utf8 text).take (MAX_READ + 1))
        rw [← hstdout, List.length_take_of_le (by omega)] at hle
        omega
      rw [if_pos hlong]
      exact ⟨iff_of_false bail_ne_ok hlen, fun _ => ⟨_, rfl⟩⟩

/-- **What was written is read back (proved)**, when it is no longer than `MAX_READ` bytes. -/
theorem written_read_iff {print : Facts → Result Text} {parse : Text → Result Facts}
    (hyaml : ∀ facts text, print facts = .ok text → parse text = .ok facts) (vmid : ℕ) (text : Text) :
    (∀ s s' tr, Run guestWorld s (Target.compose.write vmid (utf8 text)).run tr (.ok ()) s' →
        ∀ tr' r s'', Run wholeWorld s' (readFile vmid COMPOSE_FILE).run tr' r s'' →
          (r = .ok (some text) ↔ (utf8 text).length ≤ MAX_READ)) ∧
      ∀ facts, print facts = .ok text →
        ∀ s s' tr, Run guestWorld s (writeFacts print vmid facts).run tr (.ok ()) s' →
          ∀ tr' r s'', Run wholeWorld s' (readFacts parse vmid).run tr' r s'' →
            (r = .ok (some facts) ↔ (utf8 text).length ≤ MAX_READ) := by
  have hwritten : ∀ {t : Target} {s s' : Files} {tr : List (Event guestSig)},
      Run guestWorld s (t.write vmid (utf8 text)).run tr (.ok ()) s' →
        s' t.path = some (utf8 text) := fun {t s s' tr} h =>
    (write_old_or_new t (utf8 text) s vmid).2.1 tr s' h
  constructor
  · intro s s' tr h tr' r s'' hread
    exact (readFile_iff (hwritten h) hread).2.1
  · intro facts hprint s s' tr h tr' r s'' hread
    have hwrite : Run guestWorld s (Target.facts.write vmid (utf8 text)).run tr (.ok ()) s' := by
      rw [writeFacts, hprint] at h
      exact h
    have hfile : s' FACTS_FILE = some (utf8 text) := hwritten hwrite
    obtain ⟨tr₁, a, s₁, tr₂, -, hfirst, hrest⟩ := run_seq.mp hread
    obtain ⟨rfl, hiff, herror⟩ := readFile_iff hfile hfirst
    by_cases hlen : (utf8 text).length ≤ MAX_READ
    · obtain rfl := hiff.mpr hlen
      have hparse := hyaml facts text hprint
      have hend : Run wholeWorld s₁ ((do
          let f ← Fallible.ofExcept (withContext ("guest " ++ dec vmid ++ ": " ++ FACTS_FILE
            ++ " is not a facts file") (parse text))
          pure (some f) : Fallible guestSig Error (Option Facts))).run tr₂ r s'' := hrest
      rw [hparse] at hend
      obtain ⟨-, rfl, -⟩ := run_ret.mp hend
      exact iff_of_true rfl hlen
    · obtain ⟨e, rfl⟩ := herror (by omega)
      obtain ⟨-, rfl, -⟩ := run_ret.mp hrest
      exact iff_of_false nofun hlen

/-! ### A text that is too long -/

/-- A printer of one mapping of plain texts. -/
def plainYaml : Value → Result Text
  | .mapping m => .ok (m.flatMap fun e => match e with
      | (.string k, .string v) => k ++ ": " ++ v ++ "\n"
      | _ => [])
  | _ => bail "not a mapping of texts"

/-- `spec: { x-note: aaaa... }`, a note of `n` letters. -/
def longSpec (n : ℕ) : Value := .mapping [(.string "x-note", .string (List.replicate n 'a'))]

def longVars : Vars := { vmid := 105, uid := "0", gid := "0", name := "web", project := "web" }

theorem length_utf8_replicate (n : ℕ) : (utf8 (List.replicate n 'a')).length = n := by
  induction n with
  | zero => rfl
  | succ n ih =>
    have hsize : 'a'.utf8Size = 1 := rfl
    rw [List.replicate_succ, utf8_cons, List.length_append, String.length_utf8EncodeChar, ih, hsize]
    omega

/-- A text without a dollar sign is left as it is. -/
theorem substitute_of_no_dollar {text : Text} (h : '$' ∉ text) (vars : List (Text × Text)) :
    substitute text vars = text := by
  have hnone : ∀ {u : Text}, ¬ '$' :: u <:+: text := fun hu => h (hu.subset List.mem_cons_self)
  exact if_pos ⟨hnone, hnone⟩

theorem render_longSpec (n : ℕ) : render plainYaml (longSpec n) [] longVars
    = .ok (HEADER ++ ("name: web\nx-note: " ++ List.replicate n 'a' ++ "\n")) := by
  have hnote : substitute (List.replicate n 'a') longVars.map = List.replicate n 'a' :=
    substitute_of_no_dollar (fun h => absurd (List.eq_of_mem_replicate h) (by decide)) _
  have hwalk : walk longVars.map (longSpec n) = longSpec n := by
    show Value.mapping [(.string "x-note", .string (substitute _ _))] = _
    rw [hnote]
    rfl
  have hprint : plainYaml (.mapping
      [(.string "name", .string "web"), (.string "x-note", .string (List.replicate n 'a'))])
      = .ok ("name: web\n" ++ ("x-note: " ++ List.replicate n 'a' ++ "\n")) := by
    show Except.ok ("name: web\n".toList ++ (("x-note: ".toList ++ List.replicate n 'a' ++ _) ++ []))
      = _
    rw [List.append_nil]
  rw [render, renderValue, hwalk]
  exact congrArg (Except.map (HEADER ++ ·)) hprint

/-- Every read of a guest is answered. -/
theorem exists_run_read (vmid : ℕ) (path : Text) (s : Files) :
    ∃ tr r, Run wholeWorld s (readFile vmid path).run tr r s := by
  let out : Output := match s path with
    | some content => ⟨0, lossy (content.take (MAX_READ + 1)), []⟩
    | none => ⟨3, [], []⟩
  have hhead : wholeWorld.reply s (.head path (MAX_READ + 1)) (.ok out : Result Output) s := by
    refine ⟨⟨rfl, ?_⟩, trivial⟩
    rintro out' hout
    obtain rfl : out = out' := Except.ok.inj hout
    cases hs : s path with
    | none => simp only [out, hs]
    | some content => exact ⟨by simp only [out, hs], by simp only [out, hs]⟩
  exact ⟨_, _, .call hhead .ret⟩

theorem run_of_whole {α : Type} {p : Prog guestSig α} {tr : List (Event guestSig)} {a : α}
    (h : Run wholeWorld s p tr a s') : Run guestWorld s p tr a s' := by
  induction h with
  | ret => exact .ret
  | call hr _ ih => exact .call hr.1 ih

/-- A compose file written in an empty guest, and read again. -/
theorem exists_written_read (text : Text) : ∃ tr s' tr' r s'',
    Run guestWorld (fun _ => none) (Target.compose.write 105 (utf8 text)).run tr (.ok ()) s' ∧
      Run wholeWorld s' (readFile 105 COMPOSE_FILE).run tr' r s'' := by
  obtain ⟨tr, s', h⟩ := exists_run_whole .compose (utf8 text) (fun _ => none) 105
  obtain ⟨tr', r, h'⟩ := exists_run_read 105 COMPOSE_FILE s'
  exact ⟨tr, s', tr', r, s', run_of_whole h, h'⟩

/-- Every read of the facts of a guest is answered. -/
theorem exists_run_readFacts (parse : Text → Result Facts) (vmid : ℕ) (s : Files) :
    ∃ tr r, Run wholeWorld s (readFacts parse vmid).run tr r s := by
  have hpure : ∀ p : Result Facts, ∃ r, Run wholeWorld s (do
      let f ← Fallible.ofExcept p
      pure (some f) : Fallible guestSig Error (Option Facts)).run [] r s := by
    intro p
    cases p with
    | error e => exact ⟨_, .ret⟩
    | ok f => exact ⟨_, .ret⟩
  obtain ⟨tr, r, h⟩ := exists_run_read vmid FACTS_FILE s
  cases r with
  | error e => exact ⟨tr, .error e, run_bind.mpr (.inl ⟨e, h, rfl⟩)⟩
  | ok found =>
    cases found with
    | none => exact ⟨tr, .ok none, run_bind.mpr (.inr ⟨tr, none, s, [], by simp, h, .ret⟩)⟩
    | some text =>
      obtain ⟨r, hr⟩ := hpure (withContext ("guest " ++ dec vmid ++ ": " ++ FACTS_FILE
        ++ " is not a facts file") (parse text))
      exact ⟨tr, r, run_bind.mpr (.inr ⟨tr, some text, s, [], by simp, h, hr⟩)⟩

/-- What an apply records. -/
def webFacts : Facts where
  digest := "2a4fd122490ca3d391e2f7abe14df13efc252c076dca19e2ec26161bb16b79ba"
  template := some "local:vztmpl/debian-13-standard_13.7-1_amd64.tar.zst"
  appliedAt := "2026-01-01T00:00:00+00:00"
  version := "0.0.7"

/-- As YAML. -/
def webFactsText : Text :=
  "digest: 2a4fd122490ca3d391e2f7abe14df13efc252c076dca19e2ec26161bb16b79ba
".toList
    ++ "template: local:vztmpl/debian-13-standard_13.7-1_amd64.tar.zst
"
    ++ "applied_at: 2026-01-01T00:00:00+00:00
by: 0.0.7
"

/-- The libraries on these facts. -/
def printFacts (f : Facts) : Result Text := if f = webFacts then .ok webFactsText else bail "not printed here"

def parseFacts (t : Text) : Result Facts := if t = webFactsText then .ok webFacts else bail "not read here"

theorem parseFacts_printFacts (f : Facts) (t : Text) (h : printFacts f = .ok t) : parseFacts t = .ok f := by
  unfold printFacts at h
  split_ifs at h with hf
  · cases h
    exact hf ▸ if_pos rfl
  · exact absurd h bail_ne_ok

/-- A compose file and the facts, written in an empty guest and read again. -/
theorem written_read_web :
    (∃ tr s' tr' s'',
      Run guestWorld (fun _ => none) (Target.compose.write 105 (utf8 "name: web\n".toList)).run tr
          (.ok ()) s' ∧
        Run wholeWorld s' (readFile 105 COMPOSE_FILE).run tr' (.ok (some "name: web\n".toList)) s'') ∧
    ∃ tr s' tr' s'',
      Run guestWorld (fun _ => none) (writeFacts printFacts 105 webFacts).run tr (.ok ()) s' ∧
        Run wholeWorld s' (readFacts parseFacts 105).run tr' (.ok (some webFacts)) s'' := by
  have hprint : printFacts webFacts = .ok webFactsText := if_pos rfl
  constructor
  · obtain ⟨tr, s', tr', r, s'', hwrite, hread⟩ := exists_written_read "name: web\n"
    have hshort : (utf8 "name: web\n".toList).length ≤ MAX_READ := by decide
    have hr := ((written_read_iff parseFacts_printFacts 105 "name: web\n").1 _ s' tr hwrite
      tr' r s'' hread).mpr hshort
    rw [hr] at hread
    exact ⟨tr, s', tr', s'', hwrite, hread⟩
  · obtain ⟨tr, s', h⟩ := exists_run_whole .facts (utf8 webFactsText) (fun _ => none) 105
    have hwrite : Run guestWorld (fun _ => none) (writeFacts printFacts 105 webFacts).run tr (.ok ()) s' := by
      rw [writeFacts, hprint]
      exact run_of_whole h
    obtain ⟨tr', r, hread⟩ := exists_run_readFacts parseFacts 105 s'
    have hshort : (utf8 webFactsText).length ≤ MAX_READ := by decide +kernel
    have hr := ((written_read_iff parseFacts_printFacts 105 webFactsText).2 webFacts hprint _ s' tr hwrite
      tr' r s' hread).mpr hshort
    rw [hr] at hread
    exact ⟨tr, s', tr', s', hwrite, hread⟩

/-- **A compose file of more than a MiB** is written, and then not read. -/
theorem rendered_not_read : ∃ text tr s' tr' r s'',
    volumes (longSpec (2 ^ 20)) Config.default.limits = .ok [] ∧
      render plainYaml (longSpec (2 ^ 20)) [] longVars = .ok text ∧
      Run guestWorld (fun _ => none) (Target.compose.write 105 (utf8 text)).run tr (.ok ()) s' ∧
      Run wholeWorld s' (readFile 105 COMPOSE_FILE).run tr' r s'' ∧ r ≠ .ok (some text) := by
  obtain ⟨text, hrender⟩ : ∃ text, render plainYaml (longSpec (2 ^ 20)) [] longVars = .ok text :=
    ⟨_, render_longSpec _⟩
  have hlong : MAX_READ < (utf8 text).length := by
    rw [render_longSpec, Except.ok.injEq] at hrender
    rw [← hrender, utf8_append, utf8_append, utf8_append, List.length_append, List.length_append,
      List.length_append, length_utf8_replicate]
    have hnewline : (utf8 "\n".toList).length = 1 := by decide
    rw [hnewline, MAX_READ]
    omega
  obtain ⟨tr, s', tr', r, s'', hwrite, hread⟩ := exists_written_read text
  refine ⟨text, tr, s', tr', r, s'', rfl, hrender, hwrite, hread, fun hr => ?_⟩
  have hfile := (write_old_or_new .compose (utf8 text) _ 105).2.1 tr s' hwrite
  exact absurd ((readFile_iff hfile hread).2.1.mp hr) (not_le.mpr hlong)

end PveCompose
