import PveCompose.Size

/-!
# Mount lines (`pct.rs`)

One `mpN` line of a container's config: `Mount.parse` reads it, `Mount.display` prints it.

* `parse_written` — what every mount that was read satisfies: no text in it holds a comma, no
  option name an `=`, and no option is one of the four the reader takes for itself;
* `parse_display` — **PROVED, the mount-line round trip**: a printed mount reads back with its
  path, its flag and every other option, the size as `Size.reread`, and the volume as the first
  part of a line is read (`cleanVolume`).
-/

namespace PveCompose

open Words

abbrev TextMap := Std.ExtTreeMap Text Text

/-! ### Mount lines -/

/-- One `mpN` (or `rootfs`) line of a container config. -/
structure Mount where
  key : Text
  volume : Text
  mp : Option Text
  size : Option Size
  backup : Bool
  other : TextMap
deriving DecidableEq

namespace Mount

def isBind (m : Mount) : Bool := m.volume.head? = some '/'

def storage (m : Mount) : Option Text :=
  if m.isBind then none else (m.volume.splitOn ':').head?

def index (m : Mount) : Option ℕ := (m.key.dropPrefix? "mp").bind parseU32

/-- The first part of a line: trimmed, then freed of a `volume=`. -/
def cleanVolume (first : Text) : Text :=
  ((trim first).dropPrefix? "volume=").getD (trim first)

/-- One `key=value` of a line. -/
def readOption (key : Text) (m : Mount) (p : Text) : Result Mount :=
  match splitOnce '=' p with
  | none => bail ("bad mountpoint option '" ++ p ++ "' in " ++ key)
  | some (k, v) =>
    if k = "mp" then .ok { m with mp := some v }
    else if k = "size" then do
      let s ← withContext (key ++ ": size") (Size.fromStr v)
      .ok { m with size := some s }
    else if k = "backup" then .ok { m with backup := v = "1" }
    else if k = "volume" then .ok { m with volume := v }
    else .ok { m with other := m.other.insert k v }

/-- `Mount::parse`. -/
def parse (key line : Text) : Result Mount := do
  let parts := line.splitOn ','
  let start : Mount :=
    { key, volume := cleanVolume (parts.headD []), mp := none, size := none, backup := false,
      other := ∅ }
  let m ← parts.tail.foldlM (readOption key) start
  if m.volume = [] then bail (key ++ ": no volume") else .ok m

/-- `key=value`. -/
def optionText (k v : Text) : Text := k ++ '=' :: v

/-- The options of a printed mount, in order. -/
def options (m : Mount) : List Text :=
  (m.mp.map (optionText "mp")).toList ++ (m.size.map fun s => optionText "size" s.display).toList
    ++ (if m.backup then [optionText "backup" "1"] else [])
    ++ m.other.toList.map fun kv => optionText kv.1 kv.2

/-- `fmt::Display`. -/
def display (m : Mount) : Text := m.volume ++ m.options.flatMap fun o => ',' :: o

/-! ### What was read, printed and read again -/

/-- What every mount that was read satisfies, and what printing needs to be undone. -/
structure Written (m : Mount) : Prop where
  volume : ',' ∉ m.volume
  mp : ∀ p ∈ m.mp, ',' ∉ p
  size : ∀ s ∈ m.size, 0 < s.bytes
  other : ∀ k v : Text, m.other[k]? = some v →
    ('=' ∉ k ∧ ',' ∉ k ∧ ',' ∉ v) ∧ k ≠ "mp" ∧ k ≠ "size" ∧ k ≠ "backup" ∧ k ≠ "volume"

/-- The flag is no part of it. -/
theorem Written.withBackup {m : Mount} (hw : m.Written) (backup : Bool) :
    ({ m with backup := backup } : Mount).Written :=
  { volume := hw.volume, mp := hw.mp, size := hw.size, other := hw.other }

theorem not_mem_cleanVolume {c : Char} {t : Text} (h : c ∉ t) : c ∉ cleanVolume t := by
  have htrim : c ∉ trim t := fun hc => h (strip_subset _ _ hc)
  unfold cleanVolume
  cases hd : (trim t).dropPrefix? "volume=".toList with
  | none => simpa using htrim
  | some r =>
    obtain ⟨p, hp, -⟩ := List.dropPrefix?_eq_some_iff.mp hd
    rw [hp, List.mem_append, not_or] at htrim
    simpa using htrim.2

/-- A text is read as it stands when it has clean edges and does not begin with `volume=`. -/
theorem cleanVolume_eq_self_iff {t : Text} :
    cleanVolume t = t ↔ (∀ c ∈ t.head?, isSpace c = false) ∧ (∀ c ∈ t.getLast?, isSpace c = false)
      ∧ ¬ "volume=".toList <+: t := by
  have hedges : trim t = t ↔
      (∀ c ∈ t.head?, isSpace c = false) ∧ (∀ c ∈ t.getLast?, isSpace c = false) :=
    strip_eq_self_iff
  rw [← and_assoc, ← hedges]
  unfold cleanVolume
  cases hd : (trim t).dropPrefix? "volume=".toList with
  | none =>
    have hpre : trim t = t → ¬ "volume=".toList <+: t := by
      rintro ht ⟨r, hr⟩
      rw [ht, ← hr, List.dropPrefix?_append_of_beq _ (by simp)] at hd
      cases hd
    exact ⟨fun h => ⟨h, hpre h⟩, fun h => h.1⟩
  | some r =>
    obtain ⟨p, hp, hpeq⟩ := List.dropPrefix?_eq_some_iff.mp hd
    obtain rfl : p = "volume=".toList := by simpa using hpeq
    constructor
    · intro h
      have hr : r = t := h
      have hlen : (trim t).length ≤ t.length :=
        ((List.rdropWhile_prefix _ _).length_le).trans (List.dropWhile_sublist _).length_le
      rw [hp, hr, List.length_append] at hlen
      have h7 : 0 < "volume=".toList.length := by decide
      omega
    · rintro ⟨ht, hpre⟩
      exact absurd ⟨r, by rw [← ht, hp]⟩ hpre

/-- One option keeps `Written`, the key and nothing else is asked of it. -/
theorem readOption_written {key : Text} {m m' : Mount} {p : Text} (hp : ',' ∉ p)
    (h : readOption key m p = .ok m') (hm : m.Written ∧ m.key = key) :
    m'.Written ∧ m'.key = key := by
  obtain ⟨hw, hkey⟩ := hm
  unfold readOption at h
  split at h
  · exact absurd h bail_ne_ok
  · rename_i k v hkv
    obtain ⟨rfl, hk⟩ := splitOnce_eq_some hkv
    simp only [List.mem_append, List.mem_cons, not_or] at hp
    split_ifs at h with h₁ h₂ h₃ h₄
    · cases h
      exact ⟨{ hw with mp := by rintro _ ⟨⟩; exact hp.2.2 }, hkey⟩
    · obtain ⟨s, hs, h⟩ := bind_eq_ok.mp h
      cases h
      refine ⟨{ hw with size := ?_ }, hkey⟩
      rintro _ ⟨⟩
      exact Size.fromStr_pos (withContext_eq_ok.mp hs)
    · cases h
      exact ⟨{ hw with }, hkey⟩
    · cases h
      exact ⟨{ hw with volume := hp.2.2 }, hkey⟩
    · cases h
      refine ⟨{ hw with other := ?_ }, hkey⟩
      intro k' v' hv'
      rw [Std.ExtTreeMap.getElem?_insert] at hv'
      split_ifs at hv' with hkk
      · rw [Std.LawfulEqCmp.compare_eq_iff_eq] at hkk
        cases hv'
        subst hkk
        exact ⟨⟨hk, hp.1, hp.2.2⟩, h₁, h₂, h₃, h₄⟩
      · exact hw.other k' v' hv'

/-- **What was read is `Written`**, under the key it was read for, and names a volume. -/
theorem parse_written {key line : Text} {m : Mount} (h : parse key line = .ok m) :
    m.Written ∧ m.key = key ∧ m.volume ≠ [] := by
  unfold parse at h
  obtain ⟨m₁, hfold, h⟩ := bind_eq_ok.mp h
  split_ifs at h with hv
  · exact absurd h bail_ne_ok
  · cases h
    obtain ⟨first, rest, hparts⟩ := List.exists_cons_of_ne_nil (List.splitOn_ne_nil ',' line)
    have hcomma : ∀ p ∈ first :: rest, ',' ∉ p := fun p hp =>
      not_mem_of_mem_splitOn (l := line) (hparts ▸ hp)
    rw [hparts] at hfold
    have hw : m.Written ∧ m.key = key := by
      refine foldlM_induction (P := fun m => m.Written ∧ m.key = key) ?_ ⟨?_, rfl⟩ hfold
      · intro p hp b b' hb hb'
        exact readOption_written (hcomma p (List.mem_cons_of_mem _ hp)) hb' hb
      · exact { volume := not_mem_cleanVolume (hcomma first (by simp)), mp := nofun
                size := nofun, other := by simp }
    exact ⟨hw.1, hw.2, hv⟩

theorem options_comma {m : Mount} (hw : m.Written) : ∀ o ∈ m.options, ',' ∉ o := by
  have hopt : ∀ k v : Text, ',' ∉ k → ',' ∉ v → ',' ∉ optionText k v := by
    intro k v hk hv
    simp [optionText, hk, hv]
  intro o ho
  simp only [options, List.mem_append, Option.mem_toList, Option.map_eq_some_iff, List.mem_map] at ho
  rcases ho with ((⟨p, hp, rfl⟩ | ⟨s, hs, rfl⟩) | hb) | ⟨⟨k, v⟩, hkv, rfl⟩
  · exact hopt _ _ (by decide) (hw.mp p hp)
  · exact hopt _ _ (by decide) (Size.comma_not_mem_display s)
  · split_ifs at hb
    · rw [List.mem_singleton] at hb
      subst hb
      decide
    · simp at hb
  · have ho := (hw.other k v (Std.ExtTreeMap.mem_toList_iff_getElem?_eq_some.mp hkv)).1
    exact hopt _ _ ho.2.1 ho.2.2

theorem readOption_optionText {key k v : Text} {m : Mount} (hk : '=' ∉ k) :
    readOption key m (optionText k v)
      = if k = "mp" then .ok { m with mp := some v }
        else if k = "size" then do
          let s ← withContext (key ++ ": size") (Size.fromStr v)
          .ok { m with size := some s }
        else if k = "backup" then .ok { m with backup := v = "1" }
        else if k = "volume" then .ok { m with volume := v }
        else .ok { m with other := m.other.insert k v } := by
  rw [readOption, optionText, splitOnce_append v hk]

/-- A line made of a first part and options is read option by option. -/
theorem parse_flatMap {key first : Text} {opts : List Text} (hf : ',' ∉ first)
    (ho : ∀ o ∈ opts, ',' ∉ o) :
    parse key (first ++ opts.flatMap fun o => ',' :: o)
      = opts.foldlM (readOption key) { key, volume := cleanVolume first, mp := none, size := none
                                       backup := false, other := ∅ } >>= fun m =>
          if m.volume = [] then bail (key ++ ": no volume") else .ok m := by
  simp only [parse, splitOn_append_flatMap hf ho, List.headD_cons, List.tail_cons]

/-- Inserting a map's own entries into the empty map gives the map. -/
theorem foldl_insert_toList (t : TextMap) :
    t.toList.foldl (fun acc kv => acc.insert kv.1 kv.2) ∅ = t := by
  have hof : t.toList.foldl (fun acc kv => acc.insert kv.1 kv.2) ∅
      = Std.ExtTreeMap.ofList t.toList := Std.ExtTreeMap.ofList_eq_foldl.symm
  rw [hof]
  refine Std.ExtTreeMap.ext_getElem? fun k => ?_
  cases hk : t[k]? with
  | some v =>
    exact Std.ExtTreeMap.getElem?_ofList_of_mem Std.ReflCmp.compare_self
      Std.ExtTreeMap.distinct_keys_toList (Std.ExtTreeMap.mem_toList_iff_getElem?_eq_some.mpr hk)
  | none =>
    refine Std.ExtTreeMap.getElem?_ofList_of_contains_eq_false ?_
    rw [Std.ExtTreeMap.map_fst_toList_eq_keys]
    simpa using hk

/-! The four groups of printed options, each read over a mount that has nothing there yet. -/

theorem read_mp (key : Text) (p : Option Text) (c : Mount) (hc : c.mp = none) :
    (p.map (optionText "mp")).toList.foldlM (readOption key) c = .ok { c with mp := p } := by
  cases p with
  | none =>
    cases c
    cases hc
    rfl
  | some p =>
    simp only [Option.map_some, Option.toList_some, List.foldlM_cons, List.foldlM_nil,
      readOption_optionText (show '=' ∉ "mp".toList by decide), if_true, ok_bind]
    rfl

theorem read_size (key : Text) (s : Option Size) (c : Mount) (hc : c.size = none)
    (hpos : ∀ b ∈ s, 0 < b.bytes) :
    (s.map fun s => optionText "size" s.display).toList.foldlM (readOption key) c
      = .ok { c with size := s.map Size.reread } := by
  cases s with
  | none =>
    cases c
    cases hc
    rfl
  | some s =>
    simp only [Option.map_some, Option.toList_some, List.foldlM_cons, List.foldlM_nil,
      readOption_optionText (show '=' ∉ "size".toList by decide), if_true,
      Size.fromStr_display s (hpos s rfl), withContext]
    rfl

theorem read_backup (key : Text) (b : Bool) (c : Mount) (hc : c.backup = false) :
    (if b then [optionText "backup" "1"] else []).foldlM (readOption key) c
      = .ok { c with backup := b } := by
  cases b with
  | false =>
    cases c
    cases hc
    rfl
  | true =>
    simp only [if_true, List.foldlM_cons, List.foldlM_nil,
      readOption_optionText (show '=' ∉ "backup".toList by decide)]
    rfl

theorem read_other {m : Mount} (hw : m.Written) (key : Text) (c : Mount) (hc : c.other = ∅) :
    (m.other.toList.map fun kv => optionText kv.1 kv.2).foldlM (readOption key) c
      = .ok { c with other := m.other } := by
  have hstep : ∀ kv ∈ m.other.toList, ∀ c : Mount,
      readOption key c (optionText kv.1 kv.2)
        = .ok { c with other := c.other.insert kv.1 kv.2 } := by
    rintro ⟨k, v⟩ hkv c
    obtain ⟨⟨heq, -⟩, h₁, h₂, h₃, h₄⟩ :=
      hw.other k v (Std.ExtTreeMap.mem_toList_iff_getElem?_eq_some.mp hkv)
    rw [readOption_optionText heq, if_neg h₁, if_neg h₂, if_neg h₃, if_neg h₄]
  have hfold : ∀ (l : List (Text × Text)) (c : Mount),
      l.foldl (fun c kv => { c with other := c.other.insert kv.1 kv.2 }) c
        = { c with other := l.foldl (fun acc kv => acc.insert kv.1 kv.2) c.other } := by
    intro l
    induction l with
    | nil => intro c; rfl
    | cons kv l ih => intro c; rw [List.foldl_cons, ih]; rfl
  rw [List.foldlM_map, foldlM_eq_ok_foldl hstep, hfold, hc, foldl_insert_toList]

/-- **The mount-line round trip (proved).**  What a mount prints is read, under any key, as that
mount with its volume as the first part of a line is read and its size as printed sizes are. -/
theorem parse_display {m : Mount} (hw : m.Written) (key : Text) :
    parse key m.display =
      if cleanVolume m.volume = [] then bail (key ++ ": no volume")
      else .ok { m with key := key, volume := cleanVolume m.volume
                        size := m.size.map Size.reread } := by
  rw [display, parse_flatMap hw.volume (options_comma hw)]
  simp only [options, List.foldlM_append]
  rw [read_mp key _ _ rfl]
  simp only [ok_bind]
  rw [read_size key _ _ rfl hw.size]
  simp only [ok_bind]
  rw [read_backup key _ _ rfl]
  simp only [ok_bind]
  rw [read_other hw key _ rfl]
  rfl

theorem readOption_key {key key' : Text} {m m' : Mount} {p : Text}
    (h : readOption key m p = .ok m') :
    readOption key' { m with key := key' } p = .ok { m' with key := key' } := by
  unfold readOption at h ⊢
  split at h
  · exact absurd h bail_ne_ok
  · rename_i k v hkv
    dsimp only at h ⊢
    split_ifs at h ⊢
    · cases h
      rfl
    · obtain ⟨s, hs, h⟩ := bind_eq_ok.mp h
      cases h
      rw [withContext_eq_ok] at hs
      rw [hs]
      rfl
    · cases h
      rfl
    · cases h
      rfl
    · cases h
      rfl

/-- A line that is read under one key is read under every key. -/
theorem parse_key {key line : Text} {m : Mount} (h : parse key line = .ok m) (key' : Text) :
    parse key' line = .ok { m with key := key' } := by
  have hfold : ∀ (ps : List Text) (b b' : Mount), ps.foldlM (readOption key) b = .ok b' →
      ps.foldlM (readOption key') { b with key := key' } = .ok { b' with key := key' } := by
    intro ps
    induction ps with
    | nil =>
      intro b b' hb
      cases hb
      rfl
    | cons p ps ih =>
      intro b b' hb
      rw [List.foldlM_cons, bind_eq_ok] at hb ⊢
      obtain ⟨b₁, hb₁, hb⟩ := hb
      exact ⟨_, readOption_key hb₁, ih b₁ b' hb⟩
  unfold parse at h ⊢
  obtain ⟨m₁, hm₁, h⟩ := bind_eq_ok.mp h
  split_ifs at h with hv
  · exact absurd h bail_ne_ok
  · cases h
    refine bind_eq_ok.mpr ⟨_, hfold _ _ _ hm₁, ?_⟩
    exact if_neg hv

/-- The last `mp` option of a line says where the mount is, whatever stands before it. -/
theorem mp_of_parse {key pre mp : Text} {opts : List Text} {m : Mount} (hmp : ',' ∉ mp)
    (ho : ∀ o ∈ opts, ',' ∉ o) (hkeep : ∀ o ∈ opts, ∀ b b', readOption key b o = .ok b' → b'.mp = b.mp)
    (h : parse key (pre ++ (optionText "mp" mp :: opts).flatMap fun o => ',' :: o) = .ok m) :
    m.mp = some mp := by
  obtain ⟨first, rest, hpre⟩ := List.exists_cons_of_ne_nil (List.splitOn_ne_nil ',' pre)
  have hoption : ',' ∉ optionText "mp" mp := by simp [optionText, hmp]
  have hcut : (pre ++ (optionText "mp" mp :: opts).flatMap fun o => ',' :: o).splitOn ','
      = first :: (rest ++ optionText "mp" mp :: opts) := by
    rw [List.flatMap_cons, List.cons_append, List.splitOn_append_cons_self, hpre,
      splitOn_append_flatMap hoption ho]
    rfl
  unfold parse at h
  rw [hcut] at h
  simp only [List.tail_cons, List.foldlM_append, List.foldlM_cons] at h
  obtain ⟨m₁, hfold, h⟩ := bind_eq_ok.mp h
  obtain ⟨m₂, -, hfold⟩ := bind_eq_ok.mp hfold
  obtain ⟨m₃, hread, hfold⟩ := bind_eq_ok.mp hfold
  rw [readOption_optionText (show '=' ∉ "mp".toList by decide), if_pos rfl] at hread
  cases hread
  split_ifs at h
  · exact absurd h bail_ne_ok
  · cases h
    exact foldlM_induction (P := fun b => b.mp = some mp)
      (fun o hmem b b' hb hb' => (hkeep o hmem b b' hb').trans hb) rfl hfold

end Mount

end PveCompose
