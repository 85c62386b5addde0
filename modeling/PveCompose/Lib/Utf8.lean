import Mathlib

/-!
# UTF-8 and its lossy decoding

A text as the bytes it is stored as (`utf8`), and what a reader makes of bytes that need not be a
text (`lossy`): every maximal run of bytes that begins no character becomes one U+FFFD.

* `lossy_utf8` — **PROVED**: the bytes of a text are read as that text;
* `length_le_lossy` — **PROVED**: bytes are read as a text of at least as many bytes, so a text that
  was cut is not read as a shorter one.
-/

namespace Utf8

abbrev Bytes := List UInt8

/-- The bytes of a text. -/
def utf8 (t : List Char) : Bytes := t.flatMap String.utf8EncodeChar

@[simp] theorem utf8_nil : utf8 [] = [] := rfl

@[simp] theorem utf8_cons (c : Char) (t : List Char) :
    utf8 (c :: t) = String.utf8EncodeChar c ++ utf8 t := List.flatMap_cons

@[simp] theorem utf8_append (s t : List Char) : utf8 (s ++ t) = utf8 s ++ utf8 t :=
  List.flatMap_append

/-- The character the bytes begin with. -/
def headChar (b : Bytes) : Option Char := b.toByteArray.utf8DecodeChar? 0

def isContinuation (b : UInt8) : Bool := 0x80 ≤ b && b ≤ 0xBF

/-- Whether the second byte may follow the first one of a character of three bytes or four. -/
def mayFollow (b c : UInt8) : Bool :=
  (b = 0xE0 && 0xA0 ≤ c && c ≤ 0xBF) || (0xE1 ≤ b && b ≤ 0xEC && isContinuation c)
    || (b = 0xED && 0x80 ≤ c && c ≤ 0x9F) || (0xEE ≤ b && b ≤ 0xEF && isContinuation c)
    || (b = 0xF0 && 0x90 ≤ c && c ≤ 0xBF) || (0xF1 ≤ b && b ≤ 0xF3 && isContinuation c)
    || (b = 0xF4 && 0x80 ≤ c && c ≤ 0x8F)

/-- How many bytes of what begins no character are replaced at once. -/
def badLength : Bytes → ℕ
  | b :: c :: d :: _ =>
    if mayFollow b c then if 0xF0 ≤ b && isContinuation d then 3 else 2 else 1
  | [b, c] => if mayFollow b c then 2 else 1
  | _ => 1

def lossyFrom : ℕ → Bytes → List Char
  | 0, _ => []
  | _ + 1, [] => []
  | n + 1, b :: bs =>
    match headChar (b :: bs) with
    | some c => c :: lossyFrom n ((b :: bs).drop c.utf8Size)
    | none => '\uFFFD' :: lossyFrom n ((b :: bs).drop (badLength (b :: bs)))

/-- `String::from_utf8_lossy`. -/
def lossy (b : Bytes) : List Char := lossyFrom b.length b

theorem headChar_append (c : Char) (b : Bytes) : headChar (String.utf8EncodeChar c ++ b) = some c := by
  rw [headChar, List.toByteArray_append]
  exact ByteArray.utf8DecodeChar?_utf8EncodeChar_append

theorem utf8EncodeChar_ne_nil (c : Char) : String.utf8EncodeChar c ≠ [] := by
  intro h
  have hlen := String.length_utf8EncodeChar c
  rw [h, List.length_nil] at hlen
  exact absurd hlen c.utf8Size_pos.ne

theorem lossyFrom_cons {n : ℕ} (c : Char) (b : Bytes) :
    lossyFrom (n + 1) (String.utf8EncodeChar c ++ b) = c :: lossyFrom n b := by
  obtain ⟨x, xs, hx⟩ := List.exists_cons_of_ne_nil (utf8EncodeChar_ne_nil c)
  have hhead := headChar_append c b
  have hdrop : (String.utf8EncodeChar c ++ b).drop c.utf8Size = b :=
    List.drop_left' (String.length_utf8EncodeChar c)
  rw [hx, List.cons_append] at hhead hdrop ⊢
  rw [lossyFrom, hhead]
  dsimp only
  rw [hdrop]

theorem lossyFrom_utf8 (t : List Char) (b : Bytes) (n : ℕ) :
    lossyFrom (t.length + n) (utf8 t ++ b) = t ++ lossyFrom n b := by
  induction t with
  | nil => rw [List.length_nil, Nat.zero_add]; rfl
  | cons c t ih =>
    rw [List.length_cons, Nat.add_right_comm, utf8_cons, List.append_assoc, lossyFrom_cons, ih]
    rfl

theorem lossyFrom_nil (n : ℕ) : lossyFrom n [] = [] := by
  cases n <;> rfl

theorem length_le_utf8 (t : List Char) : t.length ≤ (utf8 t).length := by
  induction t with
  | nil => exact le_rfl
  | cons c t ih =>
    have hpos := c.utf8Size_pos
    rw [utf8_cons, List.length_append, String.length_utf8EncodeChar, List.length_cons]
    omega

/-- **The bytes of a text are read as that text (proved).** -/
theorem lossy_utf8 (t : List Char) : lossy (utf8 t) = t := by
  obtain ⟨n, hn⟩ := Nat.exists_eq_add_of_le (length_le_utf8 t)
  have h := lossyFrom_utf8 t [] n
  rw [List.append_nil, lossyFrom_nil, List.append_nil, ← hn] at h
  exact h

theorem badLength_le (b : Bytes) : 1 ≤ badLength b ∧ badLength b ≤ 3 := by
  unfold badLength
  split
  · split_ifs <;> omega
  · split_ifs <;> omega
  · omega

/-- **Reading bytes loses none (proved)**: what replaces bad bytes is no shorter than they are. -/
theorem length_le_lossy (b : Bytes) : b.length ≤ (utf8 (lossy b)).length := by
  have hfrom : ∀ (n : ℕ) (b : Bytes), b.length ≤ n → b.length ≤ (utf8 (lossyFrom n b)).length := by
    intro n
    induction n with
    | zero => exact fun b hb => hb.trans (Nat.zero_le _)
    | succ n ih =>
      intro b hb
      cases b with
      | nil => exact Nat.zero_le _
      | cons x xs =>
        rw [lossyFrom]
        cases headChar (x :: xs) with
        | some c =>
          have hpos := c.utf8Size_pos
          have hrest := ih ((x :: xs).drop c.utf8Size) (by rw [List.length_drop]; omega)
          rw [List.length_drop] at hrest
          dsimp only
          rw [utf8_cons, List.length_append, String.length_utf8EncodeChar]
          omega
        | none =>
          obtain ⟨hpos, hle⟩ := badLength_le (x :: xs)
          have hsize : '\uFFFD'.utf8Size = 3 := rfl
          have hrest := ih ((x :: xs).drop (badLength (x :: xs))) (by rw [List.length_drop]; omega)
          rw [List.length_drop] at hrest
          dsimp only
          rw [utf8_cons, List.length_append, String.length_utf8EncodeChar, hsize]
          omega
  exact hfrom b.length b le_rfl

end Utf8
