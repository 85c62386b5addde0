import PveCompose.Plan

/-!
# What a created disk is reported as (`size.rs`, `plan.rs`)

A disk is created from a decimal count of GiB, printed to six places (`toPctGib`); PVE allocates
that many GiB, rounded down to a whole MiB, and reports what it allocated.  The plan takes a
difference of up to one MiB for none.

* `parseDecimal_toPctGib` — **PROVED**: the printed decimal, its trailing zeros cut, is the size in
  millionths of a GiB;
* `created_iff` — **PROVED**: the next plan has nothing to do for a disk just created exactly when
  the two roundings do not take a whole MiB away (`RoundsBelow`) and the size is more than one MiB
  below `2^64`, where the sum of the comparison would wrap.
-/

namespace PveCompose

open Words

/-! ### Decimals and their trailing zeros -/

theorem parseNat_append (s t : Text) :
    parseNat (s ++ t) = parseNat s * 10 ^ t.length + parseNat t := by
  rw [parseNat, Nat.ofDigitChars_append, Nat.ofDigitChars_eq_ofDigitChars_zero, Nat.mul_comm]
  rfl

theorem parseNat_zeros (n : ℕ) : parseNat (List.replicate n '0') = 0 := by
  rw [parseNat, Nat.ofDigitChars_replicate_zero, Nat.mul_zero]

theorem rdropWhile_append (p : Char → Bool) (s t : Text) : (s ++ t).rdropWhile p =
    if t.rdropWhile p = [] then s.rdropWhile p else s ++ t.rdropWhile p := by
  rw [List.rdropWhile, List.reverse_append, List.dropWhile_append, List.rdropWhile, List.rdropWhile]
  cases t.reverse.dropWhile p with
  | nil => rfl
  | cons c l => simp

/-- What is cut from the end of a decimal are zeros. -/
theorem eq_append_zeros (s : Text) :
    ∃ z, s = s.rdropWhile (· = '0') ++ List.replicate z '0' := by
  have hzeros : ∀ c ∈ s.rtakeWhile (· = '0'), c = '0' := fun c hc => by
    simpa using List.mem_rtakeWhile_imp hc
  refine ⟨(s.rtakeWhile (· = '0')).length, ?_⟩
  rw [← List.eq_replicate_of_mem hzeros]
  exact List.rdropWhile_append_rtakeWhile.symm

/-- **Cutting trailing zeros keeps the value (proved).** -/
theorem parseDecimal_trimmed {i f : Text} (hi : ∀ c ∈ i, isDigit c = true) (hne : i ≠ [])
    (hf : ∀ c ∈ f, isDigit c = true) :
    ∃ m k, Size.parseDecimal (((i ++ "." ++ f).rdropWhile (· = '0')).rdropWhile (· = '.'))
        = some (m, k) ∧ k ≤ f.length ∧ m * 10 ^ (f.length - k) = parseNat (i ++ f) := by
  have hdot : ∀ {t : Text}, (∀ c ∈ t, isDigit c = true) → '.' ∉ t := fun ht h =>
    absurd (ht _ h) (by decide)
  obtain ⟨z, hz⟩ := eq_append_zeros f
  set g := f.rdropWhile (· = '0') with hg
  have hlen : f.length = g.length + z := by
    conv_lhs => rw [hz]
    rw [List.length_append, List.length_replicate]
  have hvalue : parseNat (i ++ f) = parseNat (i ++ g) * 10 ^ z := by
    conv_lhs => rw [hz]
    rw [← List.append_assoc, parseNat_append, parseNat_zeros, List.length_replicate, Nat.add_zero]
  have hgdigit : ∀ c ∈ g, isDigit c = true := fun c hc =>
    hf c ((List.rdropWhile_prefix _ _).subset hc)
  rw [rdropWhile_append, ← hg]
  by_cases hnil : g = []
  · -- nothing is left of the places, and the dot goes too
    have hcut : (i ++ ".".toList).rdropWhile (· = '0') = i ++ ".".toList :=
      List.rdropWhile_concat_neg _ _ _ (by decide)
    have hwhole : (i ++ ".".toList).rdropWhile (· = '.') = i := by
      rw [show i ++ ".".toList = i ++ ['.'] from rfl, List.rdropWhile_concat_pos _ _ _ (by decide),
        List.rdropWhile_eq_self_iff]
      intro _ hlast
      exact hdot hi (of_decide_eq_true hlast ▸ List.getLast_mem _)
    rw [if_pos hnil, hcut, hwhole]
    refine ⟨parseNat i, 0, ?_, Nat.zero_le _, ?_⟩
    · rw [Size.parseDecimal, List.splitOn_eq_singleton (hdot hi)]
      exact if_neg hne
    · rw [hvalue, hnil, List.append_nil, hlen, hnil, List.length_nil, Nat.zero_add, Nat.sub_zero]
  · have hkeep : (i ++ ".".toList ++ g).rdropWhile (· = '.') = i ++ ".".toList ++ g := by
      rw [List.rdropWhile_eq_self_iff]
      intro _ hlast
      rw [List.getLast_append_of_ne_nil _ hnil] at hlast
      exact hdot hgdigit (of_decide_eq_true hlast ▸ List.getLast_mem _)
    rw [if_neg hnil, hkeep]
    refine ⟨parseNat (i ++ g), g.length, ?_, by omega, ?_⟩
    · have hsplit : (i ++ ".".toList ++ g).splitOn '.' = [i, g] := by
        rw [List.append_assoc, show ".".toList ++ g = '.' :: g from rfl,
          List.splitOn_append_cons_self_of_not_mem (hdot hi), List.splitOn_eq_singleton (hdot hgdigit)]
      rw [Size.parseDecimal, hsplit]
      exact if_neg fun h => hne (List.append_eq_nil_iff.mp h).1
    · rw [hvalue, hlen, Nat.add_sub_cancel_left]

/-! ### Printing and allocating -/

/-- What PVE allocates for a decimal count of GiB, and then reports: a whole number of MiB. -/
def pveAllocates (g : Text) : Option Size :=
  (Size.parseDecimal g).map fun mk => Size.saturate (mk.1 * 1024 / 10 ^ mk.2 * 2 ^ 20)

/-- The whole number of MiB in what is printed for a size. -/
def allocatedMib (bytes : ℕ) : ℕ :=
  if bytes % 2 ^ 30 ≤ 1 then bytes / 2 ^ 30 * 1024
  else if 2 ^ 30 - bytes % 2 ^ 30 ≤ 1 then (bytes / 2 ^ 30 + 1) * 1024
  else Size.millionths bytes * 1024 / 10 ^ 6

theorem length_dec_le {n : ℕ} (h : n < 10 ^ 6) : (dec n).length ≤ 6 :=
  Nat.length_toDigits_le_iff (by decide) (by decide) |>.mpr h

/-- **What is allocated for a printed size (proved).** -/
theorem pveAllocates_toPctGib (s : Size) :
    pveAllocates s.toPctGib = some (Size.saturate (allocatedMib s.bytes * 2 ^ 20)) := by
  have hgib : Size.GIB = 2 ^ 30 := by decide
  have hwhole : ∀ n, pveAllocates (dec n) = some (Size.saturate (n * 1024 * 2 ^ 20)) := by
    intro n
    rw [pveAllocates, Size.parseDecimal_digits (dec_ne_nil _) fun _ => isDigit_of_mem_dec, parseNat_dec,
      Option.map_some, pow_zero, Nat.div_one]
  rw [Size.toPctGib, allocatedMib]
  simp only [hgib]
  split_ifs with hlow hhigh
  · exact hwhole _
  · exact hwhole _
  · set m := Size.millionths s.bytes with hm
    set frac := dec (m % 10 ^ 6) with hfrac
    have hlen : frac.length ≤ 6 := length_dec_le (Nat.mod_lt _ (by decide))
    set padded := List.replicate (6 - frac.length) '0' ++ frac with hpadded
    have hsix : padded.length = 6 := by
      rw [hpadded, List.length_append, List.length_replicate]
      omega
    have hdigits : ∀ c ∈ padded, isDigit c = true := by
      intro c hc
      rcases List.mem_append.mp hc with hc | hc
      · rw [List.eq_of_mem_replicate hc]
        decide
      · exact isDigit_of_mem_dec hc
    have hvalue : parseNat (dec (m / 10 ^ 6) ++ padded) = m := by
      rw [parseNat_append, parseNat_dec, hsix, hpadded, parseNat_append, parseNat_zeros, hfrac,
        parseNat_dec, Nat.zero_mul, Nat.zero_add]
      omega
    obtain ⟨m', k, hparse, hk, hscale⟩ :=
      parseDecimal_trimmed (fun c => isDigit_of_mem_dec) (dec_ne_nil (m / 10 ^ 6)) hdigits
    rw [hvalue, hsix] at hscale
    have hdiv : m' * 1024 / 10 ^ k = m * 1024 / 10 ^ 6 := by
      have hpow : 10 ^ 6 = 10 ^ k * 10 ^ (6 - k) := by
        rw [← pow_add]
        congr 1
        omega
      rw [← hscale, hpow, Nat.mul_right_comm]
      exact (Nat.mul_div_mul_right _ _ (by positivity)).symm
    rw [pveAllocates, hparse, Option.map_some, hdiv]

/-! ### Two roundings against one MiB -/

/-- The two roundings take away a whole MiB: the whole MiB of the size are `c` sixteenths above a
whole millionth of a GiB, and with what the size has beyond them it is still nearer to that
millionth than to the next. -/
def RoundsBelow (bytes : ℕ) : Prop :=
  let c := 9 * (bytes / 2 ^ 20) % 16
  let e := bytes % 2 ^ 20
  0 < e ∧ 0 < c ∧ 2 ^ 20 * c + 15625 * e < 2 ^ 23

instance (bytes : ℕ) : Decidable (RoundsBelow bytes) := inferInstanceAs (Decidable (_ ∧ _ ∧ _))

/-- Nothing is planned for a disk of `held` where `size` is asked. -/
def NothingPlanned (size held : Size) : Prop :=
  ∀ (v : Volume) (storage : Text) (m : Mount), m.isBind = false → m.storage = some storage →
    m.size = some held → m.backup = v.backup → mountedDiskPlan v storage size m = ⟨[], []⟩

/-- Nothing is planned exactly when no shrink is noted. -/
theorem nothingPlanned_iff {size held : Size} (hsat : diskSizeSatisfied (some held) size = true) :
    NothingPlanned size held ↔ ¬ (size.bytes + 2 ^ 20) % 2 ^ 64 < held.bytes := by
  have hplan : ∀ {v : Volume} {storage : Text} {m : Mount}, m.isBind = false →
      m.storage = some storage → m.size = some held → m.backup = v.backup →
      mountedDiskPlan v storage size m = ⟨[], if (size.bytes + 2 ^ 20) % 2 ^ 64 < held.bytes then
        ["volume " ++ v.name ++ ": is " ++ held.display ++ ", document says " ++ size.display
          ++ "; disks never shrink"] else []⟩ := by
    intro v storage m hbind hst hsize hbackup
    rw [mountedDiskPlan, if_neg (by rw [hbind]; decide), hst, hsize, if_pos hsat, if_pos hsat,
      if_pos hbackup]
    dsimp only
    rw [if_pos rfl, List.nil_append, List.nil_append]
  constructor
  · intro h hlt
    have hnone := h ⟨"a", .plain, none, true⟩ "a" ⟨"mp0", "a:b", none, some held, true, ∅⟩
      rfl rfl rfl rfl
    rw [hplan rfl rfl rfl rfl, if_pos hlt] at hnone
    exact List.cons_ne_nil _ _ (congrArg Plan.notes hnone)
  · intro hno v storage m hbind hst hsize hbackup
    rw [hplan hbind hst hsize hbackup, if_neg hno]

/-- The nearest millionth of a GiB: at most half of one away. -/
theorem millionths_near (b : ℕ) : 15625 * b ≤ 2 ^ 24 * Size.millionths b + 2 ^ 23 ∧
    2 ^ 24 * Size.millionths b ≤ 15625 * b + 2 ^ 23 := by
  have hgib : Size.GIB = 2 ^ 30 := by decide
  have hdiv : 2 ^ 30 * (b * 10 ^ 6 / 2 ^ 30) + b * 10 ^ 6 % 2 ^ 30 = 64 * (15625 * b) := by
    rw [Nat.div_add_mod]
    ring
  have hlt : b * 10 ^ 6 % 2 ^ 30 < 2 ^ 30 := Nat.mod_lt _ (by decide)
  rw [Size.millionths, hgib]
  generalize b * 10 ^ 6 / 2 ^ 30 = q at hdiv ⊢
  generalize b * 10 ^ 6 % 2 ^ 30 = r at hdiv hlt ⊢
  generalize 15625 * b = x at hdiv ⊢
  have heven : q % 2 ≤ 1 := Nat.le_of_lt_succ (Nat.mod_lt _ (by decide))
  generalize q % 2 = t at heven
  split_ifs <;> omega

/-- **The first rounding (proved)**: where it falls below the whole MiB of a size. -/
theorem millionths_below_iff {k e m : ℕ} (he : e < 2 ^ 20)
    (hlow : 15625 * (2 ^ 20 * k + e) ≤ 2 ^ 24 * m + 2 ^ 23)
    (hhigh : 2 ^ 24 * m ≤ 15625 * (2 ^ 20 * k + e) + 2 ^ 23) (hpos : 0 < e) :
    16 * m < 15625 * k ↔ 0 < 9 * k % 16 ∧ 2 ^ 20 * (9 * k % 16) + 15625 * e < 2 ^ 23 := by
  -- the whole MiB are `n` millionths and `c` sixteenths
  obtain ⟨n, c, hc, hk, hmod⟩ : ∃ n c, c < 16 ∧ 15625 * k = 16 * n + c ∧ 9 * k % 16 = c :=
    ⟨15625 * k / 16, 15625 * k % 16, Nat.mod_lt _ (by decide), by omega, by omega⟩
  have hbytes : 15625 * (2 ^ 20 * k + e) = 2 ^ 24 * n + (2 ^ 20 * c + 15625 * e) := by
    linear_combination 2 ^ 20 * hk
  rw [hbytes] at hlow hhigh
  rw [hk, hmod]
  generalize hd : 2 ^ 20 * c + 15625 * e = d at hlow hhigh ⊢
  -- no size is halfway between two millionths
  have hhalf : d ≠ 2 ^ 23 := by omega
  constructor
  · intro hlt
    have hm : m ≤ n := by omega
    exact ⟨by omega, by omega⟩
  · rintro ⟨hc0, hd'⟩
    have hm : m ≤ n := by omega
    omega

/-- **The two roundings against the tolerance (proved).** -/
theorem size_le_allocated_iff {b : ℕ} :
    b ≤ allocatedMib b * 2 ^ 20 + 2 ^ 20 ↔ ¬ RoundsBelow b := by
  obtain ⟨k, e, he, rfl⟩ : ∃ k e, e < 2 ^ 20 ∧ b = 2 ^ 20 * k + e :=
    ⟨b / 2 ^ 20, b % 2 ^ 20, Nat.mod_lt _ (by decide), (Nat.div_add_mod _ _).symm⟩
  obtain ⟨q, r, hr, rfl⟩ : ∃ q r, r < 1024 ∧ k = 1024 * q + r :=
    ⟨k / 1024, k % 1024, Nat.mod_lt _ (by decide), (Nat.div_add_mod _ _).symm⟩
  have hmib : (2 ^ 20 * (1024 * q + r) + e) / 2 ^ 20 = 1024 * q + r := by omega
  have hrest : (2 ^ 20 * (1024 * q + r) + e) % 2 ^ 20 = e := by omega
  have hgib : (2 ^ 20 * (1024 * q + r) + e) / 2 ^ 30 = q := by omega
  have hmod : (2 ^ 20 * (1024 * q + r) + e) % 2 ^ 30 = 2 ^ 20 * r + e := by omega
  obtain ⟨hlow, hhigh⟩ := millionths_near (2 ^ 20 * (1024 * q + r) + e)
  rw [allocatedMib, RoundsBelow, hmib, hrest, hgib, hmod]
  split_ifs with hwhole hnext
  · -- a whole GiB, and a byte at most
    have hr0 : r = 0 := by omega
    have hc : 9 * (1024 * q + r) % 16 = 0 := by omega
    exact iff_of_true (by omega) fun h => absurd hc h.2.1.ne'
  · have hlarge : 2 ^ 20 - 1 ≤ e := by omega
    exact iff_of_true (by omega) fun h => by omega
  · generalize Size.millionths (2 ^ 20 * (1024 * q + r) + e) = m at hlow hhigh ⊢
    generalize 1024 * q + r = k at hlow hhigh ⊢
    clear hwhole hnext hmib hrest hgib hmod
    obtain ⟨n, hn, hlo, hhi⟩ :
        ∃ n, m * 1024 / 10 ^ 6 = n ∧ 15625 * n ≤ 16 * m ∧ 16 * m < 15625 * n + 15625 :=
      ⟨m * 1024 / 10 ^ 6, rfl, by omega, by omega⟩
    rw [hn]
    rcases Nat.eq_zero_or_pos e with rfl | hpos
    · refine iff_of_true ?_ fun h => absurd h.1 (lt_irrefl 0)
      have hm : 15625 * k ≤ 16 * m + 8 := by omega
      omega
    · rw [and_iff_right hpos, ← millionths_below_iff he hlow hhigh hpos]
      have hk : 2 ^ 20 * k + e ≤ n * 2 ^ 20 + 2 ^ 20 ↔ k ≤ n := by omega
      rw [hk, not_lt]
      omega

/-- What is allocated is never a MiB more than what is asked. -/
theorem allocated_le {b : ℕ} : allocatedMib b * 2 ^ 20 ≤ b + 2 ^ 20 := by
  obtain ⟨-, hhigh⟩ := millionths_near b
  rw [allocatedMib]
  split_ifs
  · omega
  · omega
  · generalize Size.millionths b = m at hhigh ⊢
    have hn : m * 1024 / 10 ^ 6 = 16 * m / 15625 := by omega
    rw [hn]
    omega

/-- Below the last MiB of a `u64`, so is what is allocated. -/
theorem allocated_lt {b : ℕ} (h : b < 2 ^ 64 - 2 ^ 20) :
    allocatedMib b * 2 ^ 20 < 2 ^ 64 - 2 ^ 20 := by
  obtain ⟨-, hhigh⟩ := millionths_near b
  rw [allocatedMib]
  split_ifs
  · omega
  · omega
  · generalize Size.millionths b = m at hhigh ⊢
    have hn : m * 1024 / 10 ^ 6 = 16 * m / 15625 := by omega
    rw [hn]
    omega

/-- **A disk just created needs nothing (proved)**, but for the sizes that round below. -/
theorem created_iff (size : Size) :
    (∃ held, pveAllocates size.toPctGib = some held ∧ diskSizeSatisfied (some held) size = true ∧
        held.bytes ≤ size.bytes + 2 ^ 20 ∧ NothingPlanned size held) ↔
      size.bytes < 2 ^ 64 - 2 ^ 20 ∧ ¬ RoundsBelow size.bytes := by
  have hu := size.isU64
  set held := Size.saturate (allocatedMib size.bytes * 2 ^ 20) with hheld
  have hbytes : held.bytes = min (allocatedMib size.bytes * 2 ^ 20) (2 ^ 64 - 1) := rfl
  have hsat : diskSizeSatisfied (some held) size = true ↔
      size.bytes ≤ (held.bytes + 2 ^ 20) % 2 ^ 64 := decide_eq_true_iff
  constructor
  · rintro ⟨held', hheld', hsatisfied, -, hplan⟩
    rw [pveAllocates_toPctGib, Option.some.injEq, ← hheld] at hheld'
    subst hheld'
    have hshrink := (nothingPlanned_iff hsatisfied).mp hplan
    rw [hsat] at hsatisfied
    have hround : size.bytes ≤ allocatedMib size.bytes * 2 ^ 20 + 2 ^ 20 := by
      have hmod := Nat.mod_le (held.bytes + 2 ^ 20) (2 ^ 64)
      have hmin := min_le_left (allocatedMib size.bytes * 2 ^ 20) (2 ^ 64 - 1)
      omega
    refine ⟨?_, size_le_allocated_iff.mp hround⟩
    by_contra hlast
    -- only the last whole MiB can be satisfied there, and the sum of the shrink check wraps to zero
    generalize allocatedMib size.bytes = n at hbytes
    have hwhole : size.bytes = 2 ^ 64 - 2 ^ 20 := by omega
    omega
  · rintro ⟨hlt, hround⟩
    have hle := size_le_allocated_iff.mpr hround
    have hlow := allocated_lt hlt
    have hhigh := allocated_le (b := size.bytes)
    have hsatisfied : diskSizeSatisfied (some held) size = true := hsat.mpr (by omega)
    exact ⟨held, pveAllocates_toPctGib size, hsatisfied, by omega,
      (nothingPlanned_iff hsatisfied).mpr (by omega)⟩

/-- `volumes: { data: { x-pve: { size: 9437185B } } }`: nine MiB and a byte. -/
def roundedSpec : Value :=
  .mapping [(.string "volumes", .mapping [(.string "data", .mapping [(.string "x-pve",
    .mapping [(.string "size", .string "9437185B")])])])]

def roundedSize : Size := ⟨9437185, by omega⟩

/-- **Nine MiB and a byte.**  They are printed as `0.008789`, which is allocated as eight MiB. -/
theorem created_not_satisfied :
    volumes roundedSpec Config.default.limits
        = .ok [{ name := "data", kind := .disk none roundedSize, owner := none, backup := true }] ∧
      roundedSize.toPctGib = "0.008789".toList ∧
      ¬ ∃ held, pveAllocates roundedSize.toPctGib = some held ∧
        diskSizeSatisfied (some held) roundedSize = true ∧
        held.bytes ≤ roundedSize.bytes + 2 ^ 20 ∧ NothingPlanned roundedSize held := by
  refine ⟨eq_ok_of_toOption (by decide), by decide, fun h => ?_⟩
  exact ((created_iff roundedSize).mp h).2 (by decide)

end PveCompose
