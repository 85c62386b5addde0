import PveCompose.Lib.Words

/-!
# Texts, results and numbers

A Rust `str` is the list of its characters here (`Text`), so that every cut, trim and prefix test
of the source is a list operation.  `Result` carries the chain of messages of an `anyhow::Error`,
outermost first; `bail` and `withContext` are the source's `bail!` and `.with_context`.

Proved: a decimal reads back as the number it was printed from (`parseNat_dec`), and holds digits
only (`isDigit_of_mem_dec`).
-/

namespace PveCompose

open Words

abbrev Text := List Char

instance : Coe String Text := ⟨String.toList⟩

instance : LawfulBEq Text := inferInstance

/-- The messages of an `anyhow::Error`, outermost context first. -/
structure Error where
  chain : List Text
deriving DecidableEq

abbrev Result (α : Type) := Except Error α

/-- `bail!(msg)`. -/
def bail {α : Type} (msg : Text) : Result α := .error ⟨[msg]⟩

/-- `.with_context(|| msg)`: one more message in front of an error. -/
def withContext {α : Type} (msg : Text) : Result α → Result α
  | .ok a => .ok a
  | .error e => .error ⟨msg :: e.chain⟩

theorem withContext_eq_ok {α : Type} {msg : Text} {r : Result α} {a : α} :
    withContext msg r = .ok a ↔ r = .ok a := by
  cases r <;> simp [withContext]

theorem bind_eq_ok {α β : Type} {r : Result α} {f : α → Result β} {b : β} :
    (r >>= f) = .ok b ↔ ∃ a, r = .ok a ∧ f a = .ok b := by
  cases r with
  | ok a =>
    constructor
    · intro h
      exact ⟨a, rfl, h⟩
    · rintro ⟨a', ha, h⟩
      cases ha
      exact h
  | error e =>
    constructor
    · intro h
      cases h
    · rintro ⟨a', ha, -⟩
      cases ha

theorem eq_ok_of_toOption {α : Type} {r : Result α} {a : α} (h : r.toOption = some a) : r = .ok a := by
  cases r with
  | ok b => exact congrArg Except.ok (Option.some.inj h)
  | error e => cases h

@[simp] theorem ok_bind {α β : Type} (a : α) (f : α → Result β) :
    ((Except.ok a : Result α) >>= f) = f a := rfl

@[simp] theorem bail_ne_ok {α : Type} {msg : Text} {a : α} : (bail msg : Result α) ≠ .ok a :=
  nofun

/-- What every step of a fold keeps, a fold that succeeds keeps. -/
theorem foldlM_induction {α β : Type} {f : β → α → Result β} {P : β → Prop} {xs : List α}
    {b b' : β} (hstep : ∀ x ∈ xs, ∀ b b', P b → f b x = .ok b' → P b') (hb : P b)
    (h : xs.foldlM f b = .ok b') : P b' := by
  induction xs generalizing b with
  | nil =>
    cases h
    exact hb
  | cons x xs ih =>
    rw [List.foldlM_cons, bind_eq_ok] at h
    obtain ⟨b₁, h₁, h₂⟩ := h
    exact ih (fun y hy => hstep y (by simp [hy])) (hstep x (by simp) b b₁ hb h₁) h₂

/-- A fold whose steps all succeed is the pure fold. -/
theorem foldlM_eq_ok_foldl {α β : Type} {f : β → α → Result β} {g : β → α → β} {xs : List α}
    (h : ∀ x ∈ xs, ∀ b, f b x = .ok (g b x)) (b : β) : xs.foldlM f b = .ok (xs.foldl g b) := by
  induction xs generalizing b with
  | nil => rfl
  | cons x xs ih =>
    rw [List.foldlM_cons, h x (by simp), List.foldl_cons]
    exact ih (fun y hy => h y (by simp [hy])) (g b x)

theorem forM_eq_ok_iff {α : Type} {f : α → Result Unit} {xs : List α} :
    xs.forM f = .ok () ↔ ∀ x ∈ xs, f x = .ok () := by
  induction xs with
  | nil => exact ⟨fun _ _ h => absurd h List.not_mem_nil, fun _ => rfl⟩
  | cons x xs ih =>
    rw [List.forM_eq_forM, List.forM_cons, bind_eq_ok, List.forall_mem_cons]
    exact ⟨fun ⟨_, hx, hxs⟩ => ⟨hx, ih.mp hxs⟩, fun ⟨hx, hxs⟩ => ⟨(), hx, ih.mpr hxs⟩⟩

/-- Every answer of a `mapM` that succeeds is the answer for some element. -/
theorem of_mem_mapM {α β : Type} {f : α → Result β} {xs : List α} {ys : List β} {y : β}
    (h : xs.mapM f = .ok ys) (hy : y ∈ ys) : ∃ x ∈ xs, f x = .ok y := by
  induction xs generalizing ys with
  | nil =>
    cases h
    exact absurd hy List.not_mem_nil
  | cons x xs ih =>
    rw [List.mapM_cons, bind_eq_ok] at h
    obtain ⟨b, hb, h⟩ := h
    obtain ⟨bs, hbs, h⟩ := bind_eq_ok.mp h
    cases h
    rcases List.mem_cons.mp hy with rfl | hy
    · exact ⟨x, by simp, hb⟩
    · obtain ⟨x', hx', h'⟩ := ih hbs hy
      exact ⟨x', by simp [hx'], h'⟩

theorem mapM_of_mem {α β : Type} {f : α → Result β} {xs : List α} {ys : List β} {x : α}
    (h : xs.mapM f = .ok ys) (hx : x ∈ xs) : ∃ y ∈ ys, f x = .ok y := by
  induction xs generalizing ys with
  | nil => exact absurd hx List.not_mem_nil
  | cons a xs ih =>
    rw [List.mapM_cons, bind_eq_ok] at h
    obtain ⟨b, hb, h⟩ := h
    obtain ⟨bs, hbs, h⟩ := bind_eq_ok.mp h
    cases h
    rcases List.mem_cons.mp hx with rfl | hx
    · exact ⟨b, by simp, hb⟩
    · obtain ⟨y, hy, h'⟩ := ih hbs hx
      exact ⟨y, by simp [hy], h'⟩

theorem mapM_isOk {α β : Type} {f : α → Result β} {xs : List α}
    (h : ∀ x ∈ xs, ∃ y, f x = .ok y) : ∃ ys, xs.mapM f = .ok ys := by
  induction xs with
  | nil => exact ⟨[], rfl⟩
  | cons x xs ih =>
    obtain ⟨y, hy⟩ := h x (by simp)
    obtain ⟨ys, hys⟩ := ih fun x' hx' => h x' (by simp [hx'])
    exact ⟨y :: ys, by rw [List.mapM_cons, hy, hys]; rfl⟩

/-! ### White space -/

/-- Unicode `White_Space`, what `str::trim` removes. -/
def isSpace (c : Char) : Bool :=
  let n := c.toNat
  (9 ≤ n && n ≤ 13) || n = 0x20 || n = 0x85 || n = 0xA0 || n = 0x1680
    || (0x2000 ≤ n && n ≤ 0x200A) || n = 0x2028 || n = 0x2029 || n = 0x202F || n = 0x205F
    || n = 0x3000

/-- `str::trim`. -/
def trim (s : Text) : Text := strip isSpace s

/-! ### Decimals -/

/-- A natural number as `Display` prints it. -/
def dec (n : ℕ) : Text := Nat.toDigits 10 n

/-- The value of a text of digits. -/
def parseNat (s : Text) : ℕ := Nat.ofDigitChars 10 s 0

def isDigit (c : Char) : Bool := c.isDigit

theorem parseNat_dec (n : ℕ) : parseNat (dec n) = n :=
  Nat.ofDigitChars_toDigits (by decide) (by decide)

theorem isDigit_of_mem_dec {n : ℕ} {c : Char} (h : c ∈ dec n) : isDigit c = true :=
  Nat.isDigit_of_mem_toDigits (by decide) (by decide) h

theorem dec_ne_nil (n : ℕ) : dec n ≠ [] := Nat.toDigits_ne_nil

/-- No space, separator or unit letter is a digit, so none is in a decimal. -/
theorem not_mem_dec {n : ℕ} {c : Char} (hc : isDigit c = false) : c ∉ dec n := by
  intro h
  rw [isDigit_of_mem_dec h] at hc
  exact Bool.noConfusion hc

theorem isSpace_of_isDigit {c : Char} (h : isDigit c = true) : isSpace c = false := by
  simp only [isDigit, Char.isDigit, Bool.and_eq_true, decide_eq_true_eq] at h
  have h1 : 48 ≤ c.toNat := UInt32.le_iff_toNat_le.mp h.1
  have h2 : c.toNat ≤ 57 := UInt32.le_iff_toNat_le.mp h.2
  simp only [isSpace, Bool.or_eq_false_iff, Bool.and_eq_false_iff, decide_eq_false_iff_not]
  omega

/-- A decimal has no space at its front, so only what follows it can be trimmed. -/
theorem trim_dec_append {n : ℕ} {u : Text} (hu : ∀ c ∈ u.getLast?, isSpace c = false) :
    trim (dec n ++ u) = dec n ++ u := by
  refine strip_of_edges (fun c hc => ?_) (fun c hc => ?_)
  · have hmem : c ∈ dec n := by
      rw [List.head?_append_of_ne_nil _ (dec_ne_nil n)] at hc
      exact List.mem_of_head? hc
    exact isSpace_of_isDigit (isDigit_of_mem_dec hmem)
  · rw [Option.mem_def, List.getLast?_append] at hc
    cases hl : u.getLast? with
    | none =>
      rw [hl, Option.none_or] at hc
      exact isSpace_of_isDigit (isDigit_of_mem_dec (List.mem_of_getLast? hc))
    | some d =>
      rw [hl, Option.some_or, Option.some.injEq] at hc
      exact hu c (by rw [hl, hc]; rfl)

/-- `u32::from_str`: an optional `+`, then digits, below `2^32`. -/
def parseU32 (s : Text) : Option ℕ :=
  let digits := if s.head? = some '+' then s.tail else s
  if digits ≠ [] ∧ digits.all isDigit ∧ parseNat digits < 2 ^ 32 then some (parseNat digits)
  else none

theorem parseU32_dec {n : ℕ} (h : n < 2 ^ 32) : parseU32 (dec n) = some n := by
  have hplus : (dec n).head? ≠ some '+' := fun hh =>
    not_mem_dec (by decide) (List.mem_of_head? hh)
  have hall : (dec n).all isDigit = true := List.all_eq_true.mpr fun c hc => isDigit_of_mem_dec hc
  simp only [parseU32, if_neg hplus]
  rw [parseNat_dec, if_pos ⟨dec_ne_nil n, hall, h⟩]

end PveCompose
