import PveCompose.Text

/-!
# Sizes as PVE spells them (`size.rs`)

One `Size` holds bytes, as a `u64`.  It is printed with the largest unit that divides it
(`display`), read back from PVE's and the document's spellings (`fromStr`), and written as GiB for
an allocation (`toPctGib`).  The `f64` arithmetic of the source is taken as exact: the number is
the decimal that is written, and `as u64` saturates.

* `fromStr_digits_unit` — a whole count with one of the four unit letters reads as that many
  units;
* `fromStr_display` — **PROVED**: what a printed size reads back as (`reread`).  A whole number of
  KiB is itself; any other count of bytes is printed without a unit and is read as GiB.
-/

namespace PveCompose

open Words

/-- A `u64` count of bytes. -/
structure Size where
  bytes : ℕ
  isU64 : bytes < 2 ^ 64
deriving DecidableEq

namespace Size

def KIB : ℕ := 1024
def MIB : ℕ := KIB * 1024
def GIB : ℕ := MIB * 1024
def TIB : ℕ := GIB * 1024

/-- A count as `as u64` casts it. -/
def saturate (n : ℕ) : Size := ⟨min n (2 ^ 64 - 1), by omega⟩

def zero : Size := ⟨0, by omega⟩

/-- `fmt::Display`. -/
def display (s : Size) : Text :=
  let b := s.bytes
  if TIB ≤ b ∧ b % TIB = 0 then dec (b / TIB) ++ "T"
  else if GIB ≤ b ∧ b % GIB = 0 then dec (b / GIB) ++ "G"
  else if MIB ≤ b ∧ b % MIB = 0 then dec (b / MIB) ++ "M"
  else if KIB ≤ b ∧ b % KIB = 0 then dec (b / KIB) ++ "K"
  else dec b

/-! ### Reading -/

def isNumChar (c : Char) : Bool := isDigit c || c = '.'

/-- `f64::from_str` on digits and dots: the number is `mantissa / 10 ^ scale`. -/
def parseDecimal (num : Text) : Option (ℕ × ℕ) :=
  match num.splitOn '.' with
  | [i] => if i = [] then none else some (parseNat i, 0)
  | [i, f] => if i ++ f = [] then none else some (parseNat (i ++ f), f.length)
  | _ => none

def unitBytes (unit : Text) : Option ℕ :=
  if unit = [] ∨ unit = "G" ∨ unit = "GB" ∨ unit = "GIB" then some GIB
  else if unit = "M" ∨ unit = "MB" ∨ unit = "MIB" then some MIB
  else if unit = "T" ∨ unit = "TB" ∨ unit = "TIB" then some TIB
  else if unit = "K" ∨ unit = "KB" ∨ unit = "KIB" then some KIB
  else if unit = "B" then some 1
  else none

/-- `(mantissa / 10 ^ scale * mult).round()`, halves away from zero. -/
def roundBytes (mantissa scale mult : ℕ) : ℕ :=
  (2 * mantissa * mult + 10 ^ scale) / (2 * 10 ^ scale)

/-- `FromStr`. -/
def fromStr (text : Text) : Result Size :=
  let s := trim text
  if s = [] then bail "empty size"
  else
    let num := s.takeWhile isNumChar
    let unit : Text := if s.all isNumChar then "G" else s.dropWhile isNumChar
    match parseDecimal num with
    | none => bail ("bad size '" ++ s ++ "'")
    | some (mantissa, scale) =>
      match unitBytes ((trim unit).map Char.toUpper) with
      | none => bail ("bad size unit in '" ++ s ++ "'")
      | some mult =>
        let bytes := roundBytes mantissa scale mult
        if bytes < 1 then bail ("size '" ++ s ++ "' is zero") else .ok (saturate bytes)

/-! ### Writing for `pct` -/

/-- `{:.6}` of `bytes / 2^30`: the nearest millionth, ties to the even one. -/
def millionths (bytes : ℕ) : ℕ :=
  let q := bytes * 10 ^ 6 / GIB
  let r := bytes * 10 ^ 6 % GIB
  if 2 * r < GIB then q else if GIB < 2 * r then q + 1 else q + q % 2

/-- `to_pct_gib`: GiB, fractional when needed, without trailing zeros. -/
def toPctGib (s : Size) : Text :=
  let r := s.bytes % GIB
  -- within 1e-9 of a whole GiB is one byte at most
  if r ≤ 1 then dec (s.bytes / GIB)
  else if GIB - r ≤ 1 then dec (s.bytes / GIB + 1)
  else
    let m := millionths s.bytes
    let frac := dec (m % 10 ^ 6)
    let padded := List.replicate (6 - frac.length) '0' ++ frac
    let text := dec (m / 10 ^ 6) ++ "." ++ padded
    (text.rdropWhile (· = '0')).rdropWhile (· = '.')

/-- `to_pct_resize`. -/
def toPctResize (s : Size) : Text := s.display

/-! ### What a printed size reads back as -/

/-- A printed size as `fromStr` reads it: a count with no unit is a count of GiB. -/
def reread (s : Size) : Size :=
  if s.bytes % KIB = 0 then s else saturate (s.bytes * GIB)

theorem saturate_bytes (s : Size) : saturate s.bytes = s := by
  have := s.isU64
  cases s
  simp only [saturate, mk.injEq]
  omega

/-- The sizes that read back as themselves. -/
theorem reread_eq_iff {s : Size} (hpos : 0 < s.bytes) :
    s.reread = s ↔ s.bytes % KIB = 0 ∨ s.bytes = 2 ^ 64 - 1 := by
  have hlt := s.isU64
  rw [reread]
  split_ifs with hk
  · exact iff_of_true rfl (.inl hk)
  · have hbytes : saturate (s.bytes * GIB) = s ↔
        min (s.bytes * GIB) (2 ^ 64 - 1) = s.bytes := by
      cases s
      rw [saturate, mk.injEq]
    have hgib : GIB = 2 ^ 30 := by decide
    rw [hbytes, or_iff_right hk, hgib]
    omega

theorem isNumChar_of_mem_dec {n : ℕ} : ∀ c ∈ dec n, isNumChar c = true := fun c hc => by
  simp [isNumChar, isDigit_of_mem_dec hc]

theorem isNumChar_of_isDigit {c : Char} (h : isDigit c = true) : isNumChar c = true := by
  rw [isNumChar, h]
  rfl

theorem parseDecimal_digits {digits : Text} (hne : digits ≠ [])
    (hdigits : ∀ c ∈ digits, isDigit c = true) :
    parseDecimal digits = some (parseNat digits, 0) := by
  have hdot : '.' ∉ digits := fun h => absurd (hdigits _ h) (by decide)
  simp [parseDecimal, List.splitOn_eq_singleton hdot, hne]

theorem roundBytes_whole (n mult : ℕ) : roundBytes n 0 mult = n * mult := by
  simp only [roundBytes, pow_zero, mul_one]
  rw [Nat.mul_assoc]
  omega

/-- A whole count with a unit that is no digit, no dot and no space is read as that many units. -/
theorem fromStr_digits_unit {digits : Text} {mult : ℕ} {u : Char} (hne : digits ≠ [])
    (hdigits : ∀ c ∈ digits, isDigit c = true) (hnum : isNumChar u = false)
    (hsp : isSpace u = false) (hu : unitBytes [u.toUpper] = some mult)
    (hpos : 0 < parseNat digits * mult) :
    fromStr (digits ++ [u]) = .ok (saturate (parseNat digits * mult)) := by
  have hnums : ∀ c ∈ digits, isNumChar c = true := fun c hc => isNumChar_of_isDigit (hdigits c hc)
  have htrim : trim (digits ++ [u]) = digits ++ [u] := by
    refine strip_of_edges (fun c hc => ?_) (by simp [hsp])
    rw [List.head?_append_of_ne_nil _ hne] at hc
    exact isSpace_of_isDigit (hdigits c (List.mem_of_head? hc))
  have hall : (digits ++ [u]).all isNumChar = false := by
    rw [List.all_append]
    simp [hnum]
  have htake : (digits ++ [u]).takeWhile isNumChar = digits := by
    rw [List.takeWhile_append_of_pos hnums]
    simp [hnum]
  have hdrop : (digits ++ [u]).dropWhile isNumChar = [u] := by
    rw [List.dropWhile_append_of_pos hnums]
    simp [hnum]
  have hut : trim [u] = [u] := strip_of_edges (by simp [hsp]) (by simp [hsp])
  simp only [fromStr, htrim, hall, htake, hdrop, parseDecimal_digits hne hdigits,
    Bool.false_eq_true, if_false, hut, List.map_cons, List.map_nil, hu, roundBytes_whole]
  rw [if_neg (by simp), if_neg (by omega)]

theorem fromStr_dec_unit {n mult : ℕ} {u : Char} (hnum : isNumChar u = false)
    (hsp : isSpace u = false) (hu : unitBytes [u.toUpper] = some mult) (hpos : 0 < n * mult) :
    fromStr (dec n ++ [u]) = .ok (saturate (n * mult)) := by
  have h := fromStr_digits_unit (dec_ne_nil n) (fun _ => isDigit_of_mem_dec) hnum hsp hu
    (by rwa [parseNat_dec])
  rwa [parseNat_dec] at h

/-- A bare count is read as GiB. -/
theorem fromStr_dec {n : ℕ} (hpos : 0 < n) : fromStr (dec n) = .ok (saturate (n * GIB)) := by
  have htrim : trim (dec n) = dec n := by simpa using trim_dec_append (n := n) (u := []) (by simp)
  have hall : (dec n).all isNumChar = true := List.all_eq_true.mpr isNumChar_of_mem_dec
  have htake : (dec n).takeWhile isNumChar = dec n :=
    List.takeWhile_eq_self_iff.mpr isNumChar_of_mem_dec
  have hunit : unitBytes ((trim "G".toList).map Char.toUpper) = some GIB := by decide
  have hG : 0 < n * GIB := Nat.mul_pos hpos (by decide)
  simp only [fromStr, htrim, hall, htake, parseDecimal_digits (dec_ne_nil n)
    (fun _ => isDigit_of_mem_dec), parseNat_dec, if_true, hunit, roundBytes_whole]
  rw [if_neg (dec_ne_nil n), if_neg (by omega)]

/-- **A printed size reads back (proved)**: as itself when it is a whole number of KiB, and as
that many GiB when it is printed as a bare count of bytes. -/
theorem fromStr_display (s : Size) (hpos : 0 < s.bytes) : fromStr s.display = .ok s.reread := by
  have hself := saturate_bytes s
  have hunit : ∀ (mult : ℕ) (u : Char), isNumChar u = false → isSpace u = false →
      unitBytes [u.toUpper] = some mult → s.bytes % mult = 0 →
      fromStr (dec (s.bytes / mult) ++ [u]) = .ok s := by
    intro mult u hnum hsp hu hdvd
    have hback : s.bytes / mult * mult = s.bytes := Nat.div_mul_cancel (Nat.dvd_of_mod_eq_zero hdvd)
    rw [fromStr_dec_unit hnum hsp hu (by omega), hback, hself]
  have hK : ∀ mult, s.bytes % mult = 0 → KIB ∣ mult → s.reread = s := by
    intro mult hmod hdvd
    have hmod' : s.bytes % KIB = 0 :=
      Nat.mod_eq_zero_of_dvd (hdvd.trans (Nat.dvd_of_mod_eq_zero hmod))
    rw [reread, if_pos hmod']
  simp only [display]
  split_ifs with hT hG hM hB
  · rw [hK TIB hT.2 (by decide)]
    exact hunit TIB 'T' (by decide) (by decide) (by decide) hT.2
  · rw [hK GIB hG.2 (by decide)]
    exact hunit GIB 'G' (by decide) (by decide) (by decide) hG.2
  · rw [hK MIB hM.2 (by decide)]
    exact hunit MIB 'M' (by decide) (by decide) (by decide) hM.2
  · rw [hK KIB hB.2 (by decide)]
    exact hunit KIB 'K' (by decide) (by decide) (by decide) hB.2
  · have hmod : s.bytes % KIB ≠ 0 := by
      intro h0
      have hlt : s.bytes < KIB := by
        by_contra hge
        exact hB ⟨by omega, h0⟩
      rw [Nat.mod_eq_of_lt hlt] at h0
      omega
    rw [fromStr_dec hpos, reread, if_neg hmod]

theorem comma_not_mem_display (s : Size) : ',' ∉ s.display := by
  have hdec : ∀ n, ',' ∉ dec n := fun n => not_mem_dec (by decide)
  simp only [display]
  split_ifs <;> simp [hdec]

/-- A size that was read is never zero. -/
theorem fromStr_pos {t : Text} {s : Size} (h : fromStr t = .ok s) : 0 < s.bytes := by
  simp only [fromStr] at h
  generalize (if (trim t).all isNumChar = true then "G".toList else _) = unit at h
  by_cases h0 : trim t = []
  · exact absurd (if_pos h0 ▸ h) bail_ne_ok
  rw [if_neg h0] at h
  split at h
  · exact absurd h bail_ne_ok
  split at h
  · exact absurd h bail_ne_ok
  split_ifs at h with hz
  · exact absurd h bail_ne_ok
  cases h
  simp only [saturate]
  omega

end Size

end PveCompose
