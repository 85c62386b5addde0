import PveCompose.Plan

/-!
# What the calls of a plan do to a container's config

PVE is not part of the repository; what is assumed of it is the relation `Performs` between the
config before and after one call, and nothing else.  Over it:

* the config as this tool reads it, part by part and without order: `mountOf`, `features`, `tags`;
* `mountOf_stored` — **the write rule**: a stored line is read under its key, and every other key
  reads what it read;
* `parseFeatures_featuresText`, `parseTags_intercalate` — **PROVED**: the features line and the
  tags line that a plan writes are read back as what was written;
* `Counted` / `Counted.fresh` — **PROVED**: the counter of `execute` never meets a key that the
  config holds, at any point of a plan.
-/

namespace PveCompose

open Words

/-! ### The config as it is read -/

namespace PveConfig

/-- The mount read under a key. -/
def mountOf (conf : PveConfig) (k : Text) : Option Mount :=
  if isMountKey k then (conf.get? k).bind fun v => (Mount.parse k v.text).toOption else none

def features (conf : PveConfig) : TextMap :=
  (conf.get? "features").elim ∅ fun v => parseFeatures v.text

def tags (conf : PveConfig) : List Text := (conf.get? "tags").elim [] fun v => parseTags v.text

theorem mountOf_eq_some_iff {conf : PveConfig} {k : Text} {m : Mount} :
    conf.mountOf k = some m ↔ isMountKey k = true ∧
      ∃ v, conf.get? k = some v ∧ Mount.parse k v.text = .ok m := by
  unfold mountOf
  split_ifs with hk
  · simp only [Option.bind_eq_some_iff, hk, true_and]
    refine exists_congr fun v => and_congr_right fun _ => ?_
    cases Mount.parse k v.text <;> simp [Except.toOption]
  · simp [hk]

theorem key_of_mountOf {conf : PveConfig} {k : Text} {m : Mount} (h : conf.mountOf k = some m) :
    m.key = k := by
  obtain ⟨-, v, -, hp⟩ := mountOf_eq_some_iff.mp h
  exact (Mount.parse_written hp).2.1

variable {conf conf' : PveConfig} {key line : Text}

/-- **The write rule for mounts.** -/
theorem mountOf_stored (h : Stored key line conf conf') (k : Text) :
    conf'.mountOf k =
      if k = key then
        if isMountKey key then (Mount.parse key line).toOption else none
      else conf.mountOf k := by
  unfold mountOf
  rw [h k]
  by_cases hk : k = key
  · subst hk
    simp [JsonValue.text]
  · simp [hk]

/-- Writing a field in place, or at the end, stores it. -/
theorem stored_of_set (h : conf'.fields = Assoc.set key (.string line) conf.fields) :
    Stored key line conf conf' := by
  intro k
  rw [get?, h]
  exact Assoc.get?_set key k _ conf.fields

theorem mountOf_stored_ok {m : Mount} (h : Stored key line conf conf') (hk : isMountKey key = true)
    (hm : Mount.parse key line = .ok m) : conf'.mountOf key = some m := by
  rw [mountOf_stored h, if_pos rfl, if_pos hk, hm]
  rfl

theorem mountOf_stored_ne {k : Text} (h : Stored key line conf conf') (hk : k ≠ key) :
    conf'.mountOf k = conf.mountOf k := by
  rw [mountOf_stored h, if_neg hk]

theorem isSome_stored {k : Text} (h : Stored key line conf conf') (hk : (conf.get? k).isSome) :
    (conf'.get? k).isSome := by
  rw [h k]
  split_ifs
  · rfl
  · exact hk

theorem features_stored (h : Stored "features" line conf conf') :
    conf'.features = parseFeatures line := by
  rw [features, h, if_pos rfl]
  rfl

theorem features_stored_ne (h : Stored key line conf conf') (hk : ("features" : Text) ≠ key) :
    conf'.features = conf.features := by
  rw [features, h, if_neg hk, features]

theorem tags_stored (h : Stored "tags" line conf conf') : conf'.tags = parseTags line := by
  rw [tags, h, if_pos rfl]
  rfl

theorem tags_stored_ne (h : Stored key line conf conf') (hk : ("tags" : Text) ≠ key) :
    conf'.tags = conf.tags := by
  rw [tags, h, if_neg hk, tags]

end PveConfig

namespace ReadAs

variable {vmid : ℕ} {conf : PveConfig} {g : GuestConfig}

theorem mem_mounts_iff (h : ReadAs vmid conf g) {m : Mount} :
    m ∈ g.mounts ↔ conf.mountOf m.key = some m := by
  rw [h.mem_mounts, PveConfig.mountOf_eq_some_iff]

theorem features_eq (h : ReadAs vmid conf g) : g.features = conf.features := h.features

theorem tags_eq (h : ReadAs vmid conf g) : g.tags = conf.tags := h.tags

end ReadAs

/-! ### The features and tags lines -/

/-- What holds of features that were read. -/
def FeaturesWritten (t : TextMap) : Prop :=
  ∀ k v : Text, t[k]? = some v → ('=' ∉ k ∧ ',' ∉ k ∧ ',' ∉ v) ∧
    (∀ c ∈ k.head?, isSpace c = false) ∧ ∀ c ∈ v.getLast?, isSpace c = false

theorem featuresWritten_insert {t : TextMap} {k v : Text} (ht : FeaturesWritten t)
    (hk : '=' ∉ k ∧ ',' ∉ k ∧ ',' ∉ v) (hhead : ∀ c ∈ k.head?, isSpace c = false)
    (hlast : ∀ c ∈ v.getLast?, isSpace c = false) : FeaturesWritten (t.insert k v) := by
  intro k' v' hv'
  rw [Std.ExtTreeMap.getElem?_insert] at hv'
  split_ifs at hv' with hkk
  · rw [Std.LawfulEqCmp.compare_eq_iff_eq] at hkk
    subst hkk
    cases hv'
    exact ⟨hk, hhead, hlast⟩
  · exact ht k' v' hv'

theorem readFeature_written {t : TextMap} {item : Text} (hc : ',' ∉ item)
    (ht : FeaturesWritten t) : FeaturesWritten (readFeature t item) := by
  have htrim : ',' ∉ trim item := fun h => hc (strip_subset _ _ h)
  obtain ⟨hh, hl⟩ := strip_edges isSpace item
  unfold readFeature
  split_ifs with h0
  · exact ht
  · cases hs : splitOnce '=' (trim item) with
    | none =>
      refine featuresWritten_insert ht ⟨splitOnce_eq_none_iff.mp hs, htrim, by decide⟩ hh ?_
      rintro c ⟨⟩
      decide
    | some kv =>
      obtain ⟨k, v⟩ := kv
      obtain ⟨hkv, hk⟩ := splitOnce_eq_some hs
      rw [hkv, List.mem_append, List.mem_cons, not_or, not_or] at htrim
      refine featuresWritten_insert ht ⟨hk, htrim.1, htrim.2.2⟩ ?_ ?_
      · intro c hc'
        refine hh c ?_
        change c ∈ (trim item).head?
        rw [hkv]
        cases k with
        | nil => cases hc'
        | cons a k => simpa using hc'
      · intro c hc'
        refine hl c ?_
        change c ∈ (trim item).getLast?
        rw [hkv, List.getLast?_append_of_ne_nil _ (by simp)]
        cases v with
        | nil => cases hc'
        | cons a v => simpa using hc'

theorem parseFeatures_written (s : Text) : FeaturesWritten (parseFeatures s) := by
  unfold parseFeatures
  have hitems : ∀ item ∈ s.splitOn ',', ',' ∉ item := fun _ => not_mem_of_mem_splitOn
  have h0 : FeaturesWritten ∅ := by
    intro k v h
    simp at h
  generalize s.splitOn ',' = items at hitems
  generalize (∅ : TextMap) = t at h0
  induction items generalizing t with
  | nil => exact h0
  | cons item items ih =>
    rw [List.foldl_cons]
    exact ih (fun i hi => hitems i (by simp [hi])) _ (readFeature_written (hitems item (by simp)) h0)

theorem readFeature_optionText {t acc : TextMap} (ht : FeaturesWritten t) {k v : Text}
    (hv : t[k]? = some v) : readFeature acc (Mount.optionText k v) = acc.insert k v := by
  obtain ⟨⟨heq, -, -⟩, hhead, hlast⟩ := ht k v hv
  have htrim : trim (Mount.optionText k v) = Mount.optionText k v := by
    refine strip_of_edges (fun c hc => ?_) (fun c hc => ?_)
    · cases k with
      | nil =>
        obtain rfl : '=' = c := by simpa [Mount.optionText] using hc
        decide
      | cons a k => exact hhead c (by simpa [Mount.optionText] using hc)
    · rw [Mount.optionText, List.getLast?_append_of_ne_nil _ (by simp)] at hc
      cases v with
      | nil =>
        obtain rfl : '=' = c := by simpa using hc
        decide
      | cons a v => exact hlast c (by simpa using hc)
  rw [readFeature, htrim, if_neg (by simp [Mount.optionText]), Mount.optionText,
    splitOnce_append v heq]
  rfl

/-- **The features line a plan writes reads back (proved).** -/
theorem parseFeatures_featuresText {t : TextMap} (ht : FeaturesWritten t) :
    parseFeatures (featuresText t) = t := by
  have hmem : ∀ kv ∈ t.toList, t[kv.1]? = some kv.2 := fun kv hkv =>
    Std.ExtTreeMap.mem_toList_iff_getElem?_eq_some.mp hkv
  have hfold : ∀ (l : List (Text × Text)) (acc : TextMap), (∀ kv ∈ l, kv ∈ t.toList) →
      (l.map fun kv => Mount.optionText kv.1 kv.2).foldl readFeature acc
        = l.foldl (fun acc kv => acc.insert kv.1 kv.2) acc := by
    intro l
    induction l with
    | nil => exact fun _ _ => rfl
    | cons kv l ih =>
      intro acc hl
      rw [List.map_cons, List.foldl_cons, List.foldl_cons,
        readFeature_optionText ht (hmem kv (hl kv (by simp))),
        ih _ fun kv' h => hl kv' (by simp [h])]
  have hback := Mount.foldl_insert_toList t
  rw [← hfold _ _ fun kv h => h] at hback
  unfold parseFeatures featuresText
  cases hl : t.toList with
  | nil =>
    rw [hl] at hback
    simp only [List.map_nil, List.foldl_nil] at hback
    rw [← hback]
    rfl
  | cons kv l =>
    have hcut : (List.intercalate ",".toList
        (t.toList.map fun kv => Mount.optionText kv.1 kv.2)).splitOn ','
          = t.toList.map fun kv => Mount.optionText kv.1 kv.2 := by
      refine List.splitOn_intercalate ',' ?_ (by simp [hl])
      intro o ho
      obtain ⟨kv, hkv, rfl⟩ := List.mem_map.mp ho
      obtain ⟨⟨-, hk, hv⟩, -⟩ := ht _ _ (hmem kv hkv)
      simp [Mount.optionText, hk, hv]
    rw [← hl, hcut, hback]

theorem featuresWritten_wanted {t : TextMap} (ht : FeaturesWritten t) :
    FeaturesWritten (wantedFeatures t) := by
  have hone : ∀ {t : TextMap} {k : Text}, FeaturesWritten t → ('=' ∉ k ∧ ',' ∉ k) →
      (∀ c ∈ k.head?, isSpace c = false) → FeaturesWritten (t.insertIfNew k "1") := by
    intro t k ht hk hhead k' v' hv'
    rw [Std.ExtTreeMap.getElem?_insertIfNew] at hv'
    split_ifs at hv' with hkk
    · rw [Std.LawfulEqCmp.compare_eq_iff_eq] at hkk
      obtain ⟨rfl, -⟩ := hkk
      cases hv'
      refine ⟨⟨hk.1, hk.2, by decide⟩, hhead, ?_⟩
      rintro c ⟨⟩
      decide
    · exact ht k' v' hv'
  refine hone (hone ht (by decide) ?_) (by decide) ?_
  · rintro c ⟨⟩
    decide
  · rintro c ⟨⟩
    decide

/-- A feature that is set is kept as it is. -/
theorem wantedFeatures_keeps {t : TextMap} {k v : Text} (h : t[k]? = some v) :
    (wantedFeatures t)[k]? = some v := by
  have hone : ∀ {t : TextMap} {k' : Text}, t[k]? = some v → (t.insertIfNew k' "1")[k]? = some v := by
    intro t k' ht
    have hmem : k ∈ t := Std.ExtTreeMap.mem_iff_isSome_getElem?.mpr (by rw [ht]; rfl)
    rw [Std.ExtTreeMap.getElem?_insertIfNew]
    split_ifs with hkk
    · rw [Std.LawfulEqCmp.compare_eq_iff_eq] at hkk
      exact absurd hmem (hkk.1 ▸ hkk.2)
    · exact ht
  exact hone (hone h)

/-- Setting the features a second time changes nothing. -/
theorem wantedFeatures_wanted (t : TextMap) :
    wantedFeatures (wantedFeatures t) = wantedFeatures t := by
  have hkeep : ∀ {t : TextMap} {k : Text}, k ∈ t → t.insertIfNew k "1" = t := by
    intro t k hk
    refine Std.ExtTreeMap.ext_getElem? fun k' => ?_
    rw [Std.ExtTreeMap.getElem?_insertIfNew]
    split_ifs with hkk
    · rw [Std.LawfulEqCmp.compare_eq_iff_eq] at hkk
      obtain ⟨rfl, hnot⟩ := hkk
      exact absurd hk hnot
    · rfl
  have hnesting : ("nesting" : Text) ∈ wantedFeatures t := by simp [wantedFeatures]
  have hkeyctl : ("keyctl" : Text) ∈ wantedFeatures t := by simp [wantedFeatures]
  rw [wantedFeatures, hkeep hnesting, hkeep hkeyctl]

namespace ReadAs

theorem featuresWritten {vmid : ℕ} {conf : PveConfig} {g : GuestConfig} (h : ReadAs vmid conf g) :
    FeaturesWritten g.features := by
  rw [h.features]
  cases conf.get? "features" with
  | none => exact fun k v hkv => absurd hkv (by simp)
  | some v => exact parseFeatures_written v.text

end ReadAs

/-- A text that is one tag to PVE. -/
def SingleTag (t : Text) : Prop := trim t = t ∧ t ≠ [] ∧ ';' ∉ t

theorem parseTags_of_single {t : Text} (h : SingleTag t) : parseTags t = [t] := by
  obtain ⟨htrim, hne, hsemi⟩ := h
  simp [parseTags, List.splitOn_eq_singleton hsemi, htrim, hne]

theorem singleTag_of_mem_parseTags {s t : Text} (h : t ∈ parseTags s) : SingleTag t := by
  simp only [parseTags, List.mem_filter, List.mem_map, decide_eq_true_eq] at h
  obtain ⟨⟨w, hw, rfl⟩, hne⟩ := h
  exact ⟨strip_strip _ _, hne, fun hc => not_mem_of_mem_splitOn hw (strip_subset _ _ hc)⟩

theorem ReadAs.singleTags {vmid : ℕ} {conf : PveConfig} {g : GuestConfig} (h : ReadAs vmid conf g) :
    ∀ t ∈ g.tags, SingleTag t := by
  rw [h.tags]
  cases conf.get? "tags" with
  | none => exact fun t ht => absurd ht List.not_mem_nil
  | some v => exact fun t ht => singleTag_of_mem_parseTags ht

/-- **The tags line a plan writes reads back (proved)**: the tags there were, and what is added. -/
theorem parseTags_intercalate {tags : List Text} {t : Text} (h : ∀ x ∈ tags, SingleTag x) :
    parseTags (List.intercalate ";" (tags ++ [t])) = tags ++ parseTags t := by
  have hcut : (List.intercalate ";".toList (tags ++ [t])).splitOn ';' = tags ++ t.splitOn ';' :=
    splitOn_intercalate_concat fun x hx => (h x hx).2.2
  have htags : (tags.map trim).filter (fun x => decide (x ≠ [])) = tags := by
    rw [List.map_congr_left (g := id) fun x hx => (h x hx).1, List.map_id, List.filter_eq_self]
    exact fun x hx => decide_eq_true (h x hx).2.1
  rw [parseTags, hcut, List.map_append, List.filter_append, htags]
  rfl

/-! ### What a call does -/

/-- Which line PVE may keep for a disk it was asked to allocate: the operation, the key, the text
given, the line kept. -/
abbrev Alloc := Op → Text → Text → Text → Prop

/-- `Performs alloc conf conf' op call`: the call of `op` succeeds and turns `conf` into `conf'`.
A text that is set is stored as given, an allocated disk as `alloc` says, and a resize changes the
recorded size of the mount. -/
inductive Performs (alloc : Alloc) (conf conf' : PveConfig) : Op → Call → Prop where
  | setFeatures {s opt value : Text} : PveConfig.Stored opt value conf conf' →
      Performs alloc conf conf' (.setFeatures s) (.set opt value)
  | addTag {t opt value : Text} : PveConfig.Stored opt value conf conf' →
      Performs alloc conf conf' (.addTag t) (.set opt value)
  | createBind {mp path key value : Text} : PveConfig.Stored key value conf conf' →
      Performs alloc conf conf' (.createBind mp path) (.set key value)
  | createDisk {mp storage : Text} {size : Size} {backup : Bool} {key value line : Text} :
      alloc (.createDisk mp storage size backup) key value line → PveConfig.Stored key line conf conf' →
      Performs alloc conf conf' (.createDisk mp storage size backup) (.set key value)
  | resize {key mp : Text} {old new : Size} {text line : Text} {m : Mount} :
      conf.mountOf key = some m → Mount.parse key line = .ok { m with size := some new } →
      PveConfig.Stored key line conf conf' →
      Performs alloc conf conf' (.resize key mp old new) (.resize key text)
  | setBackup {m : Mount} {backup : Bool} {key value : Text} : PveConfig.Stored key value conf conf' →
      Performs alloc conf conf' (.setBackup m backup) (.set key value)

/-- A line of PVE's own for a disk: it reads as a mount of the size, at the directory and with the
flag asked for. -/
inductive Allocated : Op → Text → Text → Prop where
  | own {mp st : Text} {size : Size} {backup : Bool} {key line : Text} {m : Mount} :
      Mount.parse key line = .ok m → m.isBind = false → m.mp = some mp → m.backup = backup →
      m.size = some size → Allocated (.createDisk mp st size backup) key line

/-- The line kept for an allocated disk: the one given, or one of PVE's own. -/
def AllocatedAs : Alloc := fun op key value line => line = value ∨ Allocated op key line

/-- The calls of a list, all performed in order. -/
inductive PerformsAll (alloc : Alloc) : PveConfig → List (Op × Call) → PveConfig → Prop where
  | nil {conf : PveConfig} : PerformsAll alloc conf [] conf
  | cons {conf conf₁ conf' : PveConfig} {op : Op} {call : Call} {steps : List (Op × Call)} :
      Performs alloc conf conf₁ op call → PerformsAll alloc conf₁ steps conf' →
      PerformsAll alloc conf ((op, call) :: steps) conf'

/-- Where a call writes. -/
def Call.key : Call → Text
  | .set opt _ => opt
  | .resize disk _ => disk

/-- A performed call changes nothing but the text under its key. -/
theorem Performs.stored {alloc : Alloc} {conf conf' : PveConfig} {op : Op} {call : Call}
    (h : Performs alloc conf conf' op call) : ∃ line, PveConfig.Stored call.key line conf conf' := by
  cases h with
  | setFeatures h => exact ⟨_, h⟩
  | addTag h => exact ⟨_, h⟩
  | createBind h => exact ⟨_, h⟩
  | createDisk _ h => exact ⟨_, h⟩
  | resize _ _ h => exact ⟨_, h⟩
  | setBackup h => exact ⟨_, h⟩

/-! ### The counter of `execute` -/

/-- The index in a key. -/
def keyIndex (k : Text) : Option ℕ := (k.dropPrefix? "mp").bind parseU32

theorem keyIndex_mpKey {n : ℕ} (h : n < 2 ^ 32) : keyIndex (mpKey n) = some n := by
  rw [keyIndex, mpKey, List.dropPrefix?_append_of_beq _ (by simp)]
  exact parseU32_dec h

theorem isMountKey_mpKey (n : ℕ) : isMountKey (mpKey n) = true := by
  have hdigits : (dec n).all isDigit = true := List.all_eq_true.mpr fun _ => isDigit_of_mem_dec
  have hpre : "mp".toList.isPrefixOf (mpKey n) = true :=
    List.isPrefixOf_iff_prefix.mpr (List.prefix_append _ _)
  have hdrop : (mpKey n).drop 2 = dec n := rfl
  rw [isMountKey, hpre, hdrop, hdigits]
  rfl

/-- `next` counts what `execute` has taken: the mount keys of the config are the used indexes and
those below `next`. -/
structure Counted (g : GuestConfig) (next : ℕ) (conf : PveConfig) : Prop where
  met : ∀ k j, isMountKey k = true → (conf.get? k).isSome → keyIndex k = some j →
    j ∈ g.usedIndexes ∨ j < next
  held : ∀ j, j ∈ g.usedIndexes ∨ j < next → ∃ k, (conf.get? k).isSome ∧ keyIndex k = some j

theorem counted_start {vmid : ℕ} {conf : PveConfig} {g : GuestConfig}
    (h : parseConfig vmid conf = .ok g) : Counted g g.freeMpIndex conf := by
  have hread := parseConfig_ok h
  have hused : ∀ j ∈ g.usedIndexes, ∃ k, (conf.get? k).isSome ∧ keyIndex k = some j := by
    intro j hj
    obtain ⟨m, hm, hidx⟩ := List.mem_filterMap.mp hj
    obtain ⟨-, v, hv, -⟩ := hread.mem_mounts.mp hm
    exact ⟨m.key, by rw [hv]; rfl, hidx⟩
  refine ⟨fun k j hk hsome hidx => .inl ?_, fun j hj => hused j ?_⟩
  · obtain ⟨v, hv⟩ := Option.isSome_iff_exists.mp hsome
    obtain ⟨m, hm⟩ := parseConfig_isOk_iff.mp ⟨g, h⟩ k v hv (.inr hk)
    have hkey : m.key = k := (Mount.parse_written hm).2.1
    refine List.mem_filterMap.mpr ⟨m, hread.mem_mounts.mpr ?_, ?_⟩
    · rw [hkey]
      exact ⟨hk, v, hv, hm⟩
    · rw [← hkey] at hidx
      exact hidx
  · exact hj.elim id mem_usedIndexes_of_lt

namespace Counted

variable {g : GuestConfig} {next : ℕ} {conf conf' : PveConfig}

/-- The index taken next is below `2^32`: all smaller ones are keys of the config. -/
theorem takeIndex_lt (h : Counted g next conf) : takeIndex g.usedIndexes next < 2 ^ 32 := by
  obtain ⟨-, -, hbelow⟩ := takeIndex_spec g.usedIndexes next
  have hkey : ∀ j, j < takeIndex g.usedIndexes next →
      ∃ k, (conf.get? k).isSome ∧ keyIndex k = some j := by
    intro j hj
    refine h.held j ?_
    by_cases hlt : j < next
    · exact .inr hlt
    · exact .inl (hbelow j (by omega) hj)
  choose! f hf hidx using hkey
  have hsub : (List.range (takeIndex g.usedIndexes next)).map f ⊆ conf.fields.map Prod.fst := by
    intro k hk
    obtain ⟨j, hj, rfl⟩ := List.mem_map.mp hk
    by_contra hnot
    have hnone : conf.get? (f j) = none := Assoc.get?_eq_none_iff.mpr hnot
    have hsome := hf j (List.mem_range.mp hj)
    rw [hnone] at hsome
    exact Bool.noConfusion hsome
  have hnd : ((List.range (takeIndex g.usedIndexes next)).map f).Nodup := by
    refine List.Nodup.map_on (fun a ha b hb hab => ?_) List.nodup_range
    have hab' := hidx a (List.mem_range.mp ha)
    rw [hab, hidx b (List.mem_range.mp hb)] at hab'
    exact (Option.some.inj hab').symm
  have hlen := hnd.length_le_of_subset hsub
  have hsmall := conf.small
  simp only [List.length_map, List.length_range] at hlen
  have hmax : MAX_OUTPUT < 2 ^ 32 := by decide
  omega

/-- **A create goes to a key the config does not hold (proved).** -/
theorem fresh (h : Counted g next conf) :
    conf.get? (mpKey (takeIndex g.usedIndexes next)) = none := by
  obtain ⟨hle, hfree, -⟩ := takeIndex_spec g.usedIndexes next
  by_contra hsome
  rcases h.met _ _ (isMountKey_mpKey _) (Option.isSome_iff_ne_none.mpr hsome)
    (keyIndex_mpKey h.takeIndex_lt) with hused | hlt
  · exact hfree hused
  · omega

/-- Writing where no new mount key arises keeps the count. -/
theorem stored {key line : Text} (h : Counted g next conf) (hs : PveConfig.Stored key line conf conf')
    (hkey : isMountKey key = true → (conf.get? key).isSome) : Counted g next conf' := by
  refine ⟨fun k j hk hsome hidx => ?_, fun j hj => ?_⟩
  · rw [hs k] at hsome
    split_ifs at hsome with hkk
    · subst hkk
      exact h.met k j hk (hkey hk) hidx
    · exact h.met k j hk hsome hidx
  · obtain ⟨k, hk, hidx⟩ := h.held j hj
    exact ⟨k, PveConfig.isSome_stored hs hk, hidx⟩

/-- Writing at the index taken moves the count past it. -/
theorem stored_take {line : Text} (h : Counted g next conf)
    (hs : PveConfig.Stored (mpKey (takeIndex g.usedIndexes next)) line conf conf') :
    Counted g (takeIndex g.usedIndexes next + 1) conf' := by
  obtain ⟨hle, -, hbelow⟩ := takeIndex_spec g.usedIndexes next
  refine ⟨fun k j hk hsome hidx => ?_, fun j hj => ?_⟩
  · rw [hs k] at hsome
    split_ifs at hsome with hkk
    · rw [hkk, keyIndex_mpKey h.takeIndex_lt] at hidx
      cases hidx
      exact .inr (by omega)
    · exact (h.met k j hk hsome hidx).imp id fun hlt => by omega
  · by_cases hj' : j = takeIndex g.usedIndexes next
    · subst hj'
      exact ⟨_, by rw [hs, if_pos rfl]; rfl, keyIndex_mpKey h.takeIndex_lt⟩
    · have hold : j ∈ g.usedIndexes ∨ j < next := by
        rcases hj with hu | hlt
        · exact .inl hu
        · by_cases hn : j < next
          · exact .inr hn
          · exact .inl (hbelow j (by omega) (by omega))
      obtain ⟨k, hk, hidx⟩ := h.held j hold
      exact ⟨k, PveConfig.isSome_stored hs hk, hidx⟩

/-- **The count moves with the plan (proved).** -/
theorem performs {alloc : Alloc} {op : Op} (h : Counted g next conf)
    (hp : Performs alloc conf conf' op (opCall g next op).1)
    (hset : ∀ m b, op = .setBackup m b → (conf.get? m.key).isSome) :
    Counted g (opCall g next op).2 conf' := by
  cases op with
  | setFeatures s =>
    cases hp with
    | setFeatures hs => exact h.stored hs fun hk => absurd hk (by decide)
  | addTag t =>
    cases hp with
    | addTag hs => exact h.stored hs fun hk => absurd hk (by decide)
  | createDisk mp st size b =>
    cases hp with
    | createDisk _ hs => exact h.stored_take hs
  | createBind mp path =>
    cases hp with
    | createBind hs => exact h.stored_take hs
  | resize key mp old new =>
    cases hp with
    | resize hm _ hs =>
      refine h.stored hs fun _ => ?_
      obtain ⟨-, v, hv, -⟩ := PveConfig.mountOf_eq_some_iff.mp hm
      rw [hv]
      rfl
  | setBackup m b =>
    cases hp with
    | setBackup hs => exact h.stored hs fun _ => hset m b rfl

end Counted

end PveCompose
