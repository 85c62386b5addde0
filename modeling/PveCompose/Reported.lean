import PveCompose.GuestConfig

/-!
# Sizes as PVE reports them (`size.rs`, `pct.rs`)

PVE spells the size of a mount with the largest unit that divides it, a count of bytes that is no
whole number of KiB bare, and nothing at all as `0T` (`pveSpelling`).  The reader takes a bare
number for GiB and refuses a size of zero.

* `parse_reported` — **PROVED**: what a line PVE writes is read as, for every count of bytes;
* `reported_iff` — **PROVED**: a config whose `mpN` lines are PVE's is read with every size as it
  is exactly when every size is a positive whole number of KiB, or `2^64 - 1` bytes, where the
  cast saturates.
-/

namespace PveCompose

open Words

/-! ### PVE's spelling -/

/-- The count of the largest of T, G, M and K that divides `b`, or `b` itself; nothing is `0T`. -/
def pveSpelling (b : ℕ) : Text :=
  if b % Size.TIB = 0 then dec (b / Size.TIB) ++ "T"
  else if b % Size.GIB = 0 then dec (b / Size.GIB) ++ "G"
  else if b % Size.MIB = 0 then dec (b / Size.MIB) ++ "M"
  else if b % Size.KIB = 0 then dec (b / Size.KIB) ++ "K"
  else dec b

/-- A mount line as PVE writes it: `<volume>,mp=<path>,size=<size>`. -/
def pveLine (volume path : Text) (b : ℕ) : Text :=
  volume ++ ",mp=" ++ path ++ ",size=" ++ pveSpelling b

/-- The volume and the path of such a line: a volume is named, and nothing in either would cut the
line or be trimmed. -/
structure OnLine (volume path : Text) : Prop where
  named : volume ≠ [] ∧ volume ≠ "volume="
  comma : ',' ∉ volume ∧ ',' ∉ path
  blank : ∀ c ∈ volume ++ path, isSpace c = false

/-- Something above zero is spelled as this tool prints it. -/
theorem pveSpelling_eq_display {s : Size} (hpos : 0 < s.bytes) : pveSpelling s.bytes = s.display := by
  have hunit : ∀ u : ℕ, s.bytes % u = 0 ↔ u ≤ s.bytes ∧ s.bytes % u = 0 := fun u =>
    ⟨fun h => ⟨Nat.le_of_dvd hpos (Nat.dvd_of_mod_eq_zero h), h⟩, And.right⟩
  rw [pveSpelling, Size.display]
  simp only [← hunit]

theorem comma_not_mem_pveSpelling (b : ℕ) : ',' ∉ pveSpelling b := by
  have hdec : ∀ n, ',' ∉ dec n := fun n => not_mem_dec (by decide)
  rw [pveSpelling]
  split_ifs <;> simp [hdec]

/-- Nothing is spelled `0T`, which is refused. -/
theorem fromStr_pveSpelling_zero : Size.fromStr (pveSpelling 0) = bail "size '0T' is zero" := by
  decide

theorem fromStr_pveSpelling {s : Size} (hpos : 0 < s.bytes) :
    Size.fromStr (pveSpelling s.bytes) = .ok s.reread := by
  rw [pveSpelling_eq_display hpos]
  exact Size.fromStr_display s hpos

/-! ### A line PVE writes -/

theorem cleanVolume_ne_nil {volume path : Text} (h : OnLine volume path) :
    Mount.cleanVolume volume ≠ [] := by
  have hblank : ∀ c ∈ volume, isSpace c = false := fun c hc => h.blank c (List.mem_append_left _ hc)
  have htrim : trim volume = volume := strip_of_edges (fun c hc => hblank c (List.mem_of_head? hc))
    fun c hc => hblank c (List.mem_of_getLast? hc)
  rw [Mount.cleanVolume, htrim]
  cases hd : volume.dropPrefix? "volume=".toList with
  | none => exact h.named.1
  | some r =>
    obtain ⟨p, hp, hpeq⟩ := List.dropPrefix?_eq_some_iff.mp hd
    obtain rfl : p = "volume=".toList := by simpa using hpeq
    rintro (rfl : r = [])
    exact h.named.2 (by rw [hp, List.append_nil])

/-- **A line PVE writes is read by its size alone (proved).** -/
theorem parse_pveLine {key volume path : Text} {b : ℕ} (h : OnLine volume path) :
    Mount.parse key (pveLine volume path b) =
      withContext (key ++ ": size") (Size.fromStr (pveSpelling b)) >>= fun s =>
        .ok { key, volume := Mount.cleanVolume volume, mp := some path, size := some s,
              backup := false, other := ∅ } := by
  have hopts : ∀ o ∈ [Mount.optionText "mp" path, Mount.optionText "size" (pveSpelling b)],
      ',' ∉ o := by
    simp [Mount.optionText, h.comma.2, comma_not_mem_pveSpelling]
  have hline : pveLine volume path b = volume ++
      [Mount.optionText "mp" path, Mount.optionText "size" (pveSpelling b)].flatMap
        fun o => ',' :: o := by
    simp [pveLine, Mount.optionText]
  rw [hline, Mount.parse_flatMap h.comma.1 hopts]
  simp only [List.foldlM_cons, List.foldlM_nil,
    Mount.readOption_optionText (show '=' ∉ "mp".toList by decide),
    Mount.readOption_optionText (show '=' ∉ "size".toList by decide), if_true, ok_bind]
  cases hs : withContext (key ++ ": size") (Size.fromStr (pveSpelling b)) with
  | error e => rfl
  | ok s => exact if_neg (cleanVolume_ne_nil h)

/-- The sizes that are read as they are. -/
def ReadsAsIs (b : ℕ) : Prop := (0 < b ∧ 1024 ∣ b) ∨ b = 2 ^ 64 - 1

/-- **What a reported size is read as (proved).** -/
theorem parse_reported {key volume path : Text} {s : Size} (h : OnLine volume path) :
    (∃ m, Mount.parse key (pveLine volume path s.bytes) = .ok m ∧ m.size = some s) ↔
      ReadsAsIs s.bytes := by
  rw [parse_pveLine h]
  have hu := s.isU64
  rcases Nat.eq_zero_or_pos s.bytes with hzero | hpos
  · rw [hzero, fromStr_pveSpelling_zero]
    constructor
    · rintro ⟨m, hm, -⟩
      cases hm
    · rintro (⟨hpos, -⟩ | hmax)
      · omega
      · omega
  · rw [fromStr_pveSpelling hpos]
    have hread : (∃ m, (withContext (key ++ ": size") (.ok s.reread) >>= fun s => Except.ok
        { key := key, volume := Mount.cleanVolume volume, mp := some path, size := some s,
          backup := false, other := ∅ } : Result Mount) = .ok m ∧ m.size = some s) ↔
        s.reread = s := by
      constructor
      · rintro ⟨m, hm, hsize⟩
        cases hm
        exact Option.some.inj hsize
      · intro hs
        exact ⟨_, rfl, congrArg some hs⟩
    rw [hread, Size.reread_eq_iff hpos, ReadsAsIs, Nat.dvd_iff_mod_eq_zero, and_iff_right hpos]
    rfl

/-! ### A config PVE reports -/

/-- Every `mpN` line is PVE's, for a mount of the size that `size` gives its key; a `rootfs` line,
which names no path, is one that is read. -/
structure FromPve (conf : PveConfig) (size : Text → Size) : Prop where
  mounts : ∀ k v, conf.get? k = some v → isMountKey k = true →
    ∃ volume path, OnLine volume path ∧ v.text = pveLine volume path (size k).bytes
  rootfs : ∀ v, conf.get? "rootfs" = some v → ∃ m, Mount.parse "rootfs" v.text = .ok m

/-- **A config is read with every size as reported exactly when every size reads as it is
(proved).** -/
theorem reported_iff {vmid : ℕ} {conf : PveConfig} {size : Text → Size} (h : FromPve conf size) :
    (∃ g, parseConfig vmid conf = .ok g ∧ ∀ m ∈ g.mounts, m.size = some (size m.key)) ↔
      ∀ k v, conf.get? k = some v → isMountKey k = true → ReadsAsIs (size k).bytes := by
  constructor
  · rintro ⟨g, hg, hsizes⟩ k v hv hk
    obtain ⟨volume, path, hon, hline⟩ := h.mounts k v hv hk
    obtain ⟨m, hm⟩ := parseConfig_isOk_iff.mp ⟨g, hg⟩ k v hv (.inr hk)
    obtain rfl : m.key = k := (Mount.parse_written hm).2.1
    have hmem : m ∈ g.mounts := (parseConfig_ok hg).mem_mounts.mpr ⟨hk, v, hv, hm⟩
    rw [hline] at hm
    exact (parse_reported hon).mp ⟨m, hm, hsizes m hmem⟩
  · intro hall
    -- a reported line is read, with its size
    have hread : ∀ k v, conf.get? k = some v → isMountKey k = true →
        ∃ m, Mount.parse k v.text = .ok m ∧ m.size = some (size k) := by
      intro k v hv hk
      obtain ⟨volume, path, hon, hline⟩ := h.mounts k v hv hk
      rw [hline]
      exact (parse_reported hon).mpr (hall k v hv hk)
    have hreadable : Readable conf := by
      rintro k v hv (rfl | hk)
      · exact h.rootfs v hv
      · obtain ⟨m, hm, -⟩ := hread k v hv hk
        exact ⟨m, hm⟩
    obtain ⟨g, hg⟩ := parseConfig_isOk_iff.mpr hreadable
    refine ⟨g, hg, fun m hm => ?_⟩
    obtain ⟨hk, v, hv, hp⟩ := (parseConfig_ok hg).mem_mounts.mp hm
    obtain ⟨m', hp', hsize⟩ := hread m.key v hv hk
    rw [hp] at hp'
    cases hp'
    exact hsize

theorem onLine_data : OnLine "local-lvm:vm-105-disk-1" "/data" where
  named := by decide
  comma := by decide
  blank := by simp [isSpace]

def eightGib : Size := ⟨8 * 2 ^ 30, by decide⟩

/-- One mount of 8 GiB, as PVE reports it. -/
def reportedConf : PveConfig where
  fields := [("mp0", .string (pveLine "local-lvm:vm-105-disk-1" "/data" eightGib.bytes))]
  distinct := by decide
  small := by decide

theorem reported_data : ∃ g, parseConfig 105 reportedConf = .ok g ∧
    ∀ m ∈ g.mounts, m.size = some eightGib := by
  have hfields : ∀ {k v}, reportedConf.get? k = some v → k = "mp0" ∧
      v = .string (pveLine "local-lvm:vm-105-disk-1" "/data" eightGib.bytes) := by
    intro k v hv
    simpa [reportedConf] using Assoc.mem_of_get? hv
  have hpve : FromPve reportedConf fun _ => eightGib := by
    refine ⟨fun k v hv _ => ⟨_, _, onLine_data, ?_⟩, fun v hv => ?_⟩
    · rw [(hfields hv).2, JsonValue.text]
    · exact absurd (hfields hv).1 (by decide)
  have hbytes : eightGib.bytes = 8 * 2 ^ 30 := rfl
  refine (reported_iff hpve).mpr fun _ _ _ _ => .inl ?_
  rw [hbytes]
  omega

/-- No whole number of KiB. -/
def oddSize : Size := ⟨1500, by omega⟩

/-- **A mount of 1500 bytes** is not read as one, and one of none is not read at all. -/
theorem not_reported :
    OnLine "local-lvm:vm-105-disk-1" "/data" ∧
      (¬ ∃ m, Mount.parse "mp0" (pveLine "local-lvm:vm-105-disk-1" "/data" oddSize.bytes) = .ok m ∧
        m.size = some oddSize) ∧
      ¬ ∃ m, Mount.parse "mp0" (pveLine "local-lvm:vm-105-disk-1" "/data" 0) = .ok m := by
  have hbytes : oddSize.bytes = 1500 := rfl
  refine ⟨onLine_data, fun h => ?_, ?_⟩
  · have hreads := (parse_reported onLine_data).mp h
    rw [ReadsAsIs, hbytes] at hreads
    omega
  · rw [parse_pveLine onLine_data, fromStr_pveSpelling_zero]
    rintro ⟨m, hm⟩
    cases hm

end PveCompose
