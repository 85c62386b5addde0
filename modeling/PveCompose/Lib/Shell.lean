import Mathlib

/-!
# Shell words

How a POSIX shell cuts a text into tokens: single quotes are literal, a backslash outside quotes
takes the next character as it is, double quotes leave `$` and the backquote special, `$(...)` is
read as a command of its own, blanks end a word.  The lexer is a machine with one step for each
character, so that what it makes of a text is what it makes of the text's parts in turn
(`run_append`).  Parameter expansions are not read further: their `$` stands bare in the word.
Here-documents, arithmetic and the unbalanced parentheses of `case` are left out.

* `run_bare`, `run_single` — **PROVED**: plain characters, and characters between single quotes,
  are added to the word as they stand;
* `literal?` — the text of a word in which nothing is left for the shell to expand.
-/

namespace Shell

mutual

/-- What stands in a word.  A command's output is split again unless it is in double quotes. -/
inductive Part where
  | bare : Char → Part
  | quoted : Char → Part
  | command : Bool → List Token → Part

inductive Token where
  | word : List Part → Token
  | operator : List Char → Token

end

/-- One command being read: its finished tokens, the word begun, whether in double quotes, and the
parentheses open. -/
structure Frame where
  done : List Token
  word : Option (List Part)
  double : Bool
  depth : ℕ

inductive Mode where
  | plain : Mode
  | single : Mode
  | escape : Mode
  | dollar : Mode
  | operator : List Char → Mode
  | comment : Mode

/-- The commands around a `$(`, innermost first, and the one being read. -/
structure State where
  outer : List Frame
  frame : Frame
  mode : Mode

def Frame.empty : Frame := ⟨[], none, false, 0⟩

/-- A word is begun, if none is. -/
def Frame.start (f : Frame) : Frame := { f with word := some (f.word.getD []) }

def Frame.add (f : Frame) (p : Part) : Frame := { f with word := some (f.word.getD [] ++ [p]) }

/-- The word begun is ended. -/
def Frame.finish (f : Frame) : Frame :=
  match f.word with
  | none => f
  | some w => { f with done := f.done ++ [.word w], word := none }

def Frame.emit (f : Frame) (o : List Char) : Frame := { f with done := f.done ++ [.operator o] }

def blanks : List Char := [' ', '\t']

/-- What begins an operator; the newline is one. -/
def operatorChars : List Char := ['&', '|', ';', '<', '>', '(', ')', '\n']

/-- The operators of two characters and more. -/
def longOperators : List (List Char) :=
  [['&', '&'], ['|', '|'], [';', ';'], ['<', '<'], ['>', '>'], ['<', '&'], ['>', '&'], ['<', '>'],
    ['>', '|'], ['<', '<', '-']]

/-- What a backslash escapes in double quotes, but for the newline. -/
def escapable : List Char := ['$', '\x60', '"', '\\']

/-- The characters the lexer does more with than add them to a word. -/
def lexical : List Char := ['\'', '"', '\\', '$', '\x60', '#'] ++ blanks ++ operatorChars

/-- The characters that mean something to the shell where they stand bare in an argument.  An `=` does
in front of the command's name only, and a reserved word only in its place. -/
def special : List Char := lexical ++ ['~', '*', '?', '[', ']', '!', '%', '^', '\x7b', '\x7d']

/-- A character that begins an operator; a `)` that is not open ends the command it stands in. -/
def operatorStep (s : State) (c : Char) : State :=
  match s.outer, c, s.frame.depth with
  | f :: outer, ')', 0 => ⟨outer, f.add (.command (!f.double) s.frame.finish.done), .plain⟩
  | _, '(', n => { s with frame := { s.frame.finish with depth := n + 1 }, mode := .operator [c] }
  | _, ')', n => { s with frame := { s.frame.finish with depth := n - 1 }, mode := .operator [c] }
  | _, _, _ => { s with frame := s.frame.finish, mode := .operator [c] }

/-- One character where none of the ones before it is waiting for it. -/
def plainStep (s : State) (c : Char) : State :=
  if s.frame.double then
    if c = '"' then { s with frame := { s.frame with double := false } }
    else if c = '\\' then { s with mode := .escape }
    else if c = '$' then { s with mode := .dollar }
    else if c = '\x60' then { s with frame := s.frame.add (.bare c) }
    else { s with frame := s.frame.add (.quoted c) }
  else if c = '\'' then { s with frame := s.frame.start, mode := .single }
  else if c = '"' then { s with frame := { s.frame.start with double := true } }
  else if c = '\\' then { s with mode := .escape }
  else if c = '$' then { s with mode := .dollar }
  else if c ∈ blanks then { s with frame := s.frame.finish }
  else if c = '#' ∧ s.frame.word.isNone then { s with mode := .comment }
  else if c ∈ operatorChars then operatorStep s c
  else { s with frame := s.frame.add (.bare c) }

/-- One character. -/
def step (s : State) (c : Char) : State :=
  match s.mode with
  | .plain => plainStep s c
  | .single =>
    if c = '\'' then { s with mode := .plain } else { s with frame := s.frame.add (.quoted c) }
  | .escape =>
    if c = '\n' then { s with mode := .plain }
    else if s.frame.double ∧ c ∉ escapable then
      { s with frame := (s.frame.add (.quoted '\\')).add (.quoted c), mode := .plain }
    else { s with frame := s.frame.add (.quoted c), mode := .plain }
  | .dollar =>
    if c = '(' then ⟨s.frame :: s.outer, .empty, .plain⟩
    else plainStep { s with frame := s.frame.add (.bare '$'), mode := .plain } c
  | .operator o =>
    if o ++ [c] ∈ longOperators then { s with mode := .operator (o ++ [c]) }
    else plainStep { s with frame := s.frame.emit o, mode := .plain } c
  | .comment =>
    if c = '\n' then plainStep { s with mode := .plain } c else s

def run (s : State) (t : List Char) : State := t.foldl step s

/-- The tokens at the end of a text, if nothing is left open. -/
def State.tokens (s : State) : Option (List Token) :=
  if s.outer = [] ∧ s.frame.double = false then
    match s.mode with
    | .plain | .comment => some s.frame.finish.done
    | .dollar => some (s.frame.add (.bare '$')).finish.done
    | .operator o => some (s.frame.emit o).done
    | .single | .escape => none
  else none

/-- The tokens of a text. -/
def lex (t : List Char) : Option (List Token) := (run ⟨[], .empty, .plain⟩ t).tokens

/-- The character a part stands for, when the shell does nothing to it. -/
def Part.literal? : Part → Option Char
  | .bare c => if c ∈ special then none else some c
  | .quoted c => some c
  | .command _ _ => none

def Token.literal? : Token → Option (List Char)
  | .word w => w.mapM Part.literal?
  | .operator _ => none

/-- A text cut into words, when it is nothing but literal words. -/
def words (t : List Char) : Option (List (List Char)) := (lex t).bind fun ts => ts.mapM Token.literal?

/-! ### Runs -/

@[simp] theorem run_nil (s : State) : run s [] = s := rfl

@[simp] theorem run_cons (s : State) (c : Char) (t : List Char) :
    run s (c :: t) = run (step s c) t := rfl

/-- **A text is read part by part.** -/
theorem run_append (s : State) (t u : List Char) : run s (t ++ u) = run (run s t) u :=
  List.foldl_append

/-- What is added to a frame. -/
def Frame.addAll (f : Frame) (ps : List Part) : Frame := ps.foldl Frame.add f

@[simp] theorem Frame.addAll_nil (f : Frame) : f.addAll [] = f := rfl

theorem Frame.addAll_word (d : List Token) (w ps : List Part) (q : Bool) (n : ℕ) :
    (⟨d, some w, q, n⟩ : Frame).addAll ps = ⟨d, some (w ++ ps), q, n⟩ := by
  induction ps generalizing w with
  | nil => rw [List.append_nil, Frame.addAll_nil]
  | cons p ps ih =>
    show (⟨d, some (w ++ [p]), q, n⟩ : Frame).addAll ps = _
    rw [ih, List.append_assoc]
    rfl

/-- **Between single quotes every character stands for itself.** -/
theorem run_single (o : List Frame) (f : Frame) {t : List Char} (h : '\'' ∉ t) :
    run ⟨o, f, .single⟩ t = ⟨o, f.addAll (t.map .quoted), .single⟩ := by
  induction t generalizing f with
  | nil => rfl
  | cons c t ih =>
    obtain ⟨hc, ht⟩ := not_or.mp (mt List.mem_cons.mpr h)
    have hstep : step ⟨o, f, .single⟩ c = ⟨o, f.add (.quoted c), .single⟩ := if_neg (Ne.symm hc)
    rw [run_cons, hstep, ih _ ht]
    rfl

theorem blanks_subset : blanks ⊆ lexical := by decide

theorem operatorChars_subset : operatorChars ⊆ lexical := by decide

theorem plainStep_of_not_lexical (o : List Frame) (d : List Token) (w : Option (List Part)) (n : ℕ)
    {c : Char} (h : c ∉ lexical) :
    plainStep ⟨o, ⟨d, w, false, n⟩, .plain⟩ c = ⟨o, (⟨d, w, false, n⟩ : Frame).add (.bare c), .plain⟩ := by
  have hne : ∀ {a : Char}, a ∈ lexical → c ≠ a := fun ha hc => h (hc ▸ ha)
  rw [plainStep, if_neg Bool.false_ne_true, if_neg (hne (by decide)), if_neg (hne (by decide)),
    if_neg (hne (by decide)), if_neg (hne (by decide)), if_neg fun hc => h (blanks_subset hc),
    if_neg fun hc => hne (by decide) hc.1, if_neg fun hc => h (operatorChars_subset hc)]

/-- **Characters that are not special are added to the word.** -/
theorem run_bare (o : List Frame) (d : List Token) (w : Option (List Part)) (n : ℕ) {t : List Char}
    (h : ∀ c ∈ t, c ∉ lexical) : run ⟨o, ⟨d, w, false, n⟩, .plain⟩ t
      = ⟨o, (⟨d, w, false, n⟩ : Frame).addAll (t.map .bare), .plain⟩ := by
  induction t generalizing w with
  | nil => rfl
  | cons c t ih =>
    rw [run_cons]
    show run (plainStep _ c) t = _
    rw [plainStep_of_not_lexical o d w n (h c List.mem_cons_self)]
    exact ih _ fun a ha => h a (List.mem_cons_of_mem c ha)

/-! ### One word -/

/-- A text that is read as one word wherever a word may begin. -/
def ReadsAs (t : List Char) (w : List Part) : Prop :=
  ∀ o d n, run ⟨o, ⟨d, none, false, n⟩, .plain⟩ t = ⟨o, ⟨d, some w, false, n⟩, .plain⟩

theorem readsAs_bare {t : List Char} (hne : t ≠ []) (h : ∀ c ∈ t, c ∉ lexical) :
    ReadsAs t (t.map .bare) := by
  intro o d n
  rw [run_bare o d none n h]
  cases t with
  | nil => exact absurd rfl hne
  | cons c t =>
    show State.mk o ((⟨d, some [.bare c], false, n⟩ : Frame).addAll (t.map .bare)) .plain = _
    rw [Frame.addAll_word]
    rfl

/-- A text the lexer adds to a word as it stands, as a test. -/
def isBare (t : List Char) : Bool := !t.isEmpty && t.all fun c => !lexical.contains c

theorem readsAs_of_isBare {t : List Char} (h : isBare t = true) : ReadsAs t (t.map .bare) := by
  rw [isBare, Bool.and_eq_true, Bool.not_eq_true', List.isEmpty_eq_false_iff] at h
  refine readsAs_bare h.1 fun c hc hl => ?_
  have hplain := List.all_eq_true.mp h.2 c hc
  rw [List.contains_iff_mem.mpr hl] at hplain
  exact absurd hplain (by decide)

theorem readsAs_quote {t : List Char} (h : '\'' ∉ t) :
    ReadsAs ('\'' :: t ++ ['\'']) (t.map .quoted) := by
  intro o d n
  rw [run_append]
  show run (run ⟨o, ⟨d, some [], false, n⟩, .single⟩ t) ['\''] = _
  rw [run_single _ _ h, Frame.addAll_word, List.nil_append]
  rfl

/-- A word with nothing quoted in it. -/
def bareWord (t : List Char) : Token := .word (t.map .bare)

/-- A word in single quotes. -/
def quotedWord (t : List Char) : Token := .word (t.map .quoted)

/-- A bare word and the blank after it. -/
theorem run_bareWord {t : List Char} (h : isBare t = true) (o : List Frame) (d : List Token) (n : ℕ)
    (u : List Char) : run ⟨o, ⟨d, none, false, n⟩, .plain⟩ (t ++ ' ' :: u)
      = run ⟨o, ⟨d ++ [bareWord t], none, false, n⟩, .plain⟩ u := by
  rw [run_append, readsAs_of_isBare h]
  rfl

/-! ### Words and commands -/

variable {α : Type*} {text : α → List Char} {parts : α → List Part}

/-- **Words joined by blanks are read one by one.** -/
theorem run_words {as : List α} (h : ∀ a ∈ as, ReadsAs (text a) (parts a)) (o : List Frame)
    (d : List Token) (n : ℕ) :
    ∃ f, run ⟨o, ⟨d, none, false, n⟩, .plain⟩ (List.intercalate [' '] (as.map text)) = ⟨o, f, .plain⟩ ∧
      f.double = false ∧ f.depth = n ∧
      f.finish = ⟨d ++ as.map fun a => .word (parts a), none, false, n⟩ := by
  induction as generalizing d with
  | nil => exact ⟨_, rfl, rfl, rfl, by rw [List.map_nil, List.append_nil]; rfl⟩
  | cons a as ih =>
    have ha := h a List.mem_cons_self
    cases as with
    | nil =>
      refine ⟨⟨d, some (parts a), false, n⟩, ?_, rfl, rfl, rfl⟩
      rw [List.map_singleton, List.intercalate_singleton]
      exact ha o d n
    | cons b as =>
      obtain ⟨f, hrun, hdouble, hdepth, hfinish⟩ :=
        ih (fun c hc => h c (List.mem_cons_of_mem a hc)) (d ++ [.word (parts a)])
      refine ⟨f, ?_, hdouble, hdepth, ?_⟩
      · rw [List.map_cons, List.map_cons, List.intercalate_cons_cons, List.append_assoc, run_append, ha]
        exact hrun
      · rw [hfinish, List.append_assoc]
        rfl

/-- The state after a `;`. -/
def ended (d : List Token) : State := ⟨[], ⟨d, none, false, 0⟩, .operator [';']⟩

theorem plainStep_semicolon {f : Frame} (h : f.double = false) :
    plainStep ⟨[], f, .plain⟩ ';' = ⟨[], f.finish, .operator [';']⟩ := by
  rw [plainStep, if_neg (by rw [h]; exact Bool.false_ne_true)]
  rfl

/-- **A command after another.** -/
theorem run_command {as : List α} (h : ∀ a ∈ as, ReadsAs (text a) (parts a)) (d : List Token) :
    run (ended d) (' ' :: List.intercalate [' '] (as.map text) ++ [';'])
      = ended (d ++ .operator [';'] :: as.map fun a => .word (parts a)) := by
  obtain ⟨f, hrun, hdouble, hdepth, hfinish⟩ := run_words h [] (d ++ [.operator [';']]) 0
  rw [run_append]
  show run (run ⟨[], ⟨d ++ [.operator [';']], none, false, 0⟩, .plain⟩ _) [';'] = _
  rw [hrun]
  show plainStep ⟨[], f, .plain⟩ ';' = _
  rw [plainStep_semicolon hdouble, hfinish, List.append_assoc]
  rfl

/-- **Commands, each ended by a `;`.** -/
theorem lex_commands {as : List α} {css : List (List α)}
    (h : ∀ cs ∈ as :: css, ∀ a ∈ cs, ReadsAs (text a) (parts a)) :
    lex (List.intercalate [' '] (as.map text) ++ [';']
        ++ css.flatMap fun cs => ' ' :: List.intercalate [' '] (cs.map text) ++ [';'])
      = some ((as :: css).flatMap fun cs => (cs.map fun a => .word (parts a)) ++ [.operator [';']]) := by
  have hrest : ∀ (css : List (List α)) (d : List Token),
      (∀ cs ∈ css, ∀ a ∈ cs, ReadsAs (text a) (parts a)) →
      (run (ended d) (css.flatMap fun cs => ' ' :: List.intercalate [' '] (cs.map text) ++ [';'])).tokens
        = some (d ++ .operator [';']
            :: css.flatMap fun cs => (cs.map fun a => .word (parts a)) ++ [.operator [';']]) := by
    intro css
    induction css with
    | nil => exact fun d _ => rfl
    | cons cs css ih =>
      intro d hcss
      rw [List.flatMap_cons, run_append, run_command (hcss cs List.mem_cons_self),
        ih _ fun bs hbs => hcss bs (List.mem_cons_of_mem cs hbs), List.flatMap_cons,
        List.append_assoc, List.append_assoc]
      rfl
  obtain ⟨f, hrun, hdouble, hdepth, hfinish⟩ := run_words (h as List.mem_cons_self) [] [] 0
  have hfirst : run ⟨[], .empty, .plain⟩ (List.intercalate [' '] (as.map text) ++ [';'])
      = ended (as.map fun a => .word (parts a)) := by
    rw [run_append, Frame.empty, hrun]
    show plainStep ⟨[], f, .plain⟩ ';' = _
    rw [plainStep_semicolon hdouble, hfinish]
    rfl
  rw [lex, run_append, hfirst, hrest css _ fun cs hcs => h cs (List.mem_cons_of_mem as hcs),
    List.flatMap_cons, List.append_assoc]
  rfl

/-- **A command in double quotes** stands in one word with what it is made of. -/
theorem readsAs_command {as : List α} (h : ∀ a ∈ as, ReadsAs (text a) (parts a)) :
    ReadsAs (['"', '$', '('] ++ List.intercalate [' '] (as.map text) ++ [')', '"'])
      [.command false (as.map fun a => .word (parts a))] := by
  intro o d n
  obtain ⟨f, hrun, hdouble, hdepth, hfinish⟩ := run_words h (⟨d, some [], true, n⟩ :: o) [] 0
  rw [run_append, run_append]
  show run (run ⟨⟨d, some [], true, n⟩ :: o, ⟨[], none, false, 0⟩, .plain⟩ _) [')', '"'] = _
  rw [hrun]
  show step (plainStep ⟨⟨d, some [], true, n⟩ :: o, f, .plain⟩ ')') '"' = _
  have hstep : plainStep ⟨⟨d, some [], true, n⟩ :: o, f, .plain⟩ ')'
      = ⟨o, ⟨d, some [.command false f.finish.done], true, n⟩, .plain⟩ := by
    obtain ⟨fd, fw, fq, fn⟩ := f
    obtain rfl : fq = false := hdouble
    obtain rfl : fn = 0 := hdepth
    rfl
  rw [hstep, hfinish]
  rfl

/-! ### Literal words -/

/-- **A quoted text is left alone**, whatever is in it. -/
theorem literal?_quoted (t : List Char) : (quotedWord t).literal? = some t := by
  induction t with
  | nil => rfl
  | cons c t ih =>
    show ((Part.quoted c :: t.map Part.quoted).mapM Part.literal? : Option (List Char)) = _
    rw [List.mapM_cons]
    show (quotedWord t).literal?.bind _ = _
    rw [ih]
    rfl

/-- A bare text without special characters is left alone. -/
theorem literal?_bare {t : List Char} (h : ∀ c ∈ t, c ∉ special) :
    (bareWord t).literal? = some t := by
  induction t with
  | nil => rfl
  | cons c t ih =>
    have hc : Part.literal? (.bare c) = some c := if_neg (h c List.mem_cons_self)
    show ((Part.bare c :: t.map Part.bare).mapM Part.literal? : Option (List Char)) = _
    rw [List.mapM_cons, hc]
    show (bareWord t).literal?.bind _ = _
    rw [ih fun a ha => h a (List.mem_cons_of_mem c ha)]
    rfl

/-- Literal words are one list of texts. -/
theorem mapM_literal? {α : Type*} {f : α → Token} {g : α → List Char}
    (h : ∀ a, (f a).literal? = some (g a)) (as : List α) :
    (as.map f).mapM Token.literal? = some (as.map g) := by
  induction as with
  | nil => rfl
  | cons a as ih =>
    rw [List.map_cons, List.mapM_cons, h, ih]
    rfl

end Shell
