import PveCompose.Plan

/-!
# Rewriting a mount line (`pct.rs`, `plan.rs`)

`SetBackup` writes a whole mount line: the one that was read, printed with another flag.  The
printer puts the options in its own order, drops a flag that is off and spells the size anew.

* `readOption_rereads` — **one option**: the volume is left alone and the size stays one that reads
  back, whatever the option is;
* `parse_spelled` — **PROVED**: what a line in PVE's spelling is read as has the line's volume, which
  reads back, and a size that does;
* `rewritten` — **PROVED**: the line a plan writes for `SetBackup` reads as the mount it was made
  from with only the flag changed.
-/

namespace PveCompose

open Words

/-! ### PVE's spelling of a mount line -/

def isStorageChar (c : Char) : Bool := c.isAlphanum || c = '-' || c = '_' || c = '.'

/-- An absolute path, or `<storage>:<name>`. -/
inductive VolumeText : Text → Prop where
  | path (rest : Text) : VolumeText ('/' :: rest)
  | volid (storage name : Text) : storage.all isStorageChar = true → VolumeText (storage ++ ':' :: name)

/-- A positive whole number with its unit. -/
structure WholeSize (digits : Text) (unit : Char) : Prop where
  number : digits ≠ [] ∧ ∀ c ∈ digits, isDigit c = true
  positive : 0 < parseNat digits
  known : unit ∈ ['K', 'M', 'G', 'T']

/-- The first part of a line, the volume it names, and the options. -/
structure SpelledLine (first volume : Text) (opts : List (Text × Text)) : Prop where
  named : VolumeText volume
  bare : first = volume ∨ first = "volume=" ++ volume
  blank : ∀ c ∈ first, isSpace c = false
  comma : ',' ∉ first ∧ ∀ o ∈ opts, ',' ∉ o.1 ∧ ',' ∉ o.2
  key : ∀ o ∈ opts, '=' ∉ o.1 ∧ o.1 ≠ "volume"
  size : ∀ o ∈ opts, o.1 = "size" → ∃ digits unit, o.2 = digits ++ [unit] ∧ WholeSize digits unit

/-- The line of these parts. -/
def mountLine (first : Text) (opts : List (Text × Text)) : Text :=
  first ++ (opts.map fun o => Mount.optionText o.1 o.2).flatMap fun o => ',' :: o

/-! ### The volume -/

theorem volumeText_ne_nil {t : Text} (h : VolumeText t) : t ≠ [] := by
  cases h with
  | path rest => exact List.cons_ne_nil _ _
  | volid storage name _ => simp

/-- No volume begins with `volume=`: the `=` is in no storage id, and a path begins with a slash. -/
theorem not_volume_of_volumeText {t : Text} (h : VolumeText t) : ¬ "volume=".toList <+: t := by
  rintro ⟨r, hr⟩
  cases h with
  | path rest => cases hr
  | volid storage name hstorage =>
    have hall : ∀ c ∈ storage, isStorageChar c = true := List.all_eq_true.mp hstorage
    have hleft : ("volume=".toList ++ r).dropWhile isStorageChar = '=' :: r := rfl
    have hright : (storage ++ ':' :: name).dropWhile isStorageChar = ':' :: name := by
      rw [List.dropWhile_append_of_pos hall]
      rfl
    rw [hr, hright] at hleft
    cases hleft

/-- A volume without spaces is read as it stands. -/
theorem cleanVolume_of_volumeText {t : Text} (h : VolumeText t) (hblank : ∀ c ∈ t, isSpace c = false) :
    Mount.cleanVolume t = t :=
  Mount.cleanVolume_eq_self_iff.mpr ⟨fun c hc => hblank c (List.mem_of_head? hc),
    fun c hc => hblank c (List.mem_of_getLast? hc), not_volume_of_volumeText h⟩

variable {first volume : Text} {opts : List (Text × Text)} {key : Text} {m : Mount}

theorem SpelledLine.volume_blank (h : SpelledLine first volume opts) : ∀ c ∈ volume, isSpace c = false := by
  intro c hc
  rcases h.bare with hfirst | hfirst
  · exact h.blank c (hfirst ▸ hc)
  · exact h.blank c (hfirst ▸ List.mem_append_right _ hc)

/-- Either spelling of the first part names the volume. -/
theorem SpelledLine.cleanVolume_first (h : SpelledLine first volume opts) :
    Mount.cleanVolume first = volume := by
  rcases h.bare with hfirst | hfirst
  · rw [hfirst]
    exact cleanVolume_of_volumeText h.named h.volume_blank
  · have htrim : trim first = first := strip_of_edges (fun c hc => h.blank c (List.mem_of_head? hc))
      fun c hc => h.blank c (List.mem_of_getLast? hc)
    rw [Mount.cleanVolume, htrim, hfirst, List.dropPrefix?_append_of_beq _ (by simp)]
    rfl

/-! ### The size -/

theorem unitBytes_of_mem {unit : Char} (h : unit ∈ ['K', 'M', 'G', 'T']) :
    Size.isNumChar unit = false ∧ isSpace unit = false ∧
      ∃ mult, Size.unitBytes [unit.toUpper] = some mult ∧ Size.KIB ∣ mult ∧ 0 < mult := by
  simp only [List.mem_cons, List.not_mem_nil, or_false] at h
  rcases h with rfl | rfl | rfl | rfl
  · exact ⟨by decide, by decide, Size.KIB, by decide, by decide, by decide⟩
  · exact ⟨by decide, by decide, Size.MIB, by decide, by decide, by decide⟩
  · exact ⟨by decide, by decide, Size.GIB, by decide, by decide, by decide⟩
  · exact ⟨by decide, by decide, Size.TIB, by decide, by decide, by decide⟩

/-- A size in whole units reads back from its print. -/
theorem reread_of_wholeSize {digits : Text} {unit : Char} {s : Size} (h : WholeSize digits unit)
    (hs : Size.fromStr (digits ++ [unit]) = .ok s) : s.reread = s := by
  obtain ⟨hnum, hsp, mult, hmult, hdvd, hpos⟩ := unitBytes_of_mem h.known
  have hbytes : 0 < parseNat digits * mult := Nat.mul_pos h.positive hpos
  rw [Size.fromStr_digits_unit h.number.1 h.number.2 hnum hsp hmult hbytes] at hs
  obtain rfl := Except.ok.inj hs
  have hk : parseNat digits * mult % Size.KIB = 0 :=
    Nat.mod_eq_zero_of_dvd (hdvd.trans (Nat.dvd_mul_left _ _))
  refine (Size.reread_eq_iff ?_).mpr ?_
  · simp only [Size.saturate]
    omega
  · -- a count of a whole number of KiB, unless the cast saturates
    by_cases hlt : parseNat digits * mult < 2 ^ 64
    · left
      have hmin : (Size.saturate (parseNat digits * mult)).bytes = parseNat digits * mult := by
        simp only [Size.saturate]
        omega
      rw [hmin, hk]
    · right
      simp only [Size.saturate]
      omega

/-! ### The options -/

/-- What reading options keeps: the volume, and a size that reads back. -/
structure Rereads (volume : Text) (m : Mount) : Prop where
  names : m.volume = volume
  size : ∀ s ∈ m.size, s.reread = s

theorem readOption_rereads (h : SpelledLine first volume opts) {o : Text × Text} (ho : o ∈ opts)
    {b b' : Mount} (hb : Rereads volume b)
    (hread : Mount.readOption key b (Mount.optionText o.1 o.2) = .ok b') : Rereads volume b' := by
  rw [Mount.readOption_optionText (h.key o ho).1, if_neg (h.key o ho).2] at hread
  split_ifs at hread with hmp hsize hbackup
  · cases hread
    exact { hb with }
  · obtain ⟨s, hs, hread⟩ := bind_eq_ok.mp hread
    cases hread
    obtain ⟨digits, unit, hvalue, hwhole⟩ := h.size o ho hsize
    rw [withContext_eq_ok, hvalue] at hs
    refine { hb with size := ?_ }
    rintro _ ⟨⟩
    exact reread_of_wholeSize hwhole hs
  · cases hread
    exact { hb with }
  · cases hread
    exact { hb with }

/-- **What a line in PVE's spelling is read as (proved).** -/
theorem parse_spelled (h : SpelledLine first volume opts)
    (hparse : Mount.parse key (mountLine first opts) = .ok m) : Rereads volume m := by
  have hcomma : ∀ o ∈ opts.map fun o => Mount.optionText o.1 o.2, ',' ∉ o := by
    intro o ho
    obtain ⟨kv, hkv, rfl⟩ := List.mem_map.mp ho
    have hkv := h.comma.2 kv hkv
    simp [Mount.optionText, hkv.1, hkv.2]
  rw [mountLine, Mount.parse_flatMap h.comma.1 hcomma] at hparse
  obtain ⟨b, hfold, hend⟩ := bind_eq_ok.mp hparse
  have hrereads : Rereads volume b := by
    refine foldlM_induction (P := Rereads volume) (fun o ho b b' hb hread => ?_)
      ⟨h.cleanVolume_first, by rintro _ ⟨⟩⟩ hfold
    obtain ⟨kv, hkv, rfl⟩ := List.mem_map.mp ho
    exact readOption_rereads h hkv hb hread
  split_ifs at hend
  · exact absurd hend bail_ne_ok
  · cases hend
    exact hrereads

/-! ### The line that is written -/

/-- **Rewriting a mount line loses nothing (proved).**  For a line in PVE's spelling that is read, the
line that `SetBackup` writes is read as the same mount with the flag that was asked for. -/
theorem rewritten (h : SpelledLine first volume opts)
    (hparse : Mount.parse key (mountLine first opts) = .ok m) (g : GuestConfig) (p : Plan)
    (backup : Bool) (call : Call) (hcall : (Op.setBackup m backup, call) ∈ execute g p) :
    ∃ text, call = .set key text ∧ Mount.parse key text = .ok { m with backup := backup } := by
  obtain ⟨hw, hkey, -⟩ := Mount.parse_written hparse
  obtain ⟨hvolume, hsize⟩ := parse_spelled h hparse
  obtain ⟨-, n, hopcall⟩ := mem_callsFrom hcall
  refine ⟨_, hopcall.trans (congrArg (Call.set · _) hkey), ?_⟩
  have hclean : Mount.cleanVolume m.volume = m.volume := by
    rw [hvolume]
    exact cleanVolume_of_volumeText h.named h.volume_blank
  have hreread : m.size.map Size.reread = m.size := by
    cases hs : m.size with
    | none => rfl
    | some s => exact congrArg some (hsize s hs)
  rw [Mount.parse_display (hw.withBackup backup) key]
  dsimp only
  rw [hclean, hreread, if_neg (hvolume ▸ volumeText_ne_nil h.named), ← hkey]

/-- A line with everything: the volume named, an option PVE has and this tool does not, the size
before the path, and the flag in between. -/
def fracOpts : List (Text × Text) :=
  [("ro", "1"), ("size", "512M"), ("backup", "1"), ("mp", "/mnt/frac"), ("acl", "0")]

def fracMount : Mount where
  key := "mp1"
  volume := "local-lvm:vm-201-disk-1"
  mp := some "/mnt/frac"
  size := some (Size.saturate (512 * 2 ^ 20))
  backup := true
  other := ((∅ : TextMap).insert "ro" "1").insert "acl" "0"

theorem fracOpts_spelled :
    SpelledLine "volume=local-lvm:vm-201-disk-1" "local-lvm:vm-201-disk-1" fracOpts where
  named := .volid "local-lvm" "vm-201-disk-1" (by decide)
  bare := .inr rfl
  blank := by simp [isSpace]
  comma := by decide
  key := by decide
  size := by
    intro o ho hsize
    obtain rfl : o = ("size".toList, "512M".toList) := by
      revert o
      decide
    exact ⟨"512".toList, 'M', rfl, ⟨by decide, by simp [isDigit]⟩, by decide, by decide⟩

set_option maxRecDepth 4096 in
theorem fracMount_parse :
    Mount.parse "mp1" (mountLine "volume=local-lvm:vm-201-disk-1" fracOpts) = .ok fracMount := rfl

/-- The flag of that line is taken away. -/
theorem rewritten_frac :
    ∃ text, Call.set "mp1" ({ fracMount with backup := false } : Mount).display = .set "mp1" text ∧
      Mount.parse "mp1" text = .ok { fracMount with backup := false } :=
  rewritten fracOpts_spelled fracMount_parse (emptyConfig 105)
    ⟨[.setBackup fracMount false], []⟩ false _ (List.mem_singleton_self _)

end PveCompose
