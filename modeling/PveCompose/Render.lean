import PveCompose.Spec

/-!
# The rendered document, against the document and its volumes (`spec.rs`)

`volumes` reads the `volumes` map through tags; `render` replaces in it only what no tag hides.

* `get_renderValue` — the rendered `volumes` is the document's, its strings substituted and its
  managed definitions replaced;
* `render_frame` — **PROVED**: of a document without tags, the rendered one has the project's name
  first, a bind for every managed volume, and everything else as it was but for the strings
  (`Rendered`);
* `volumes_agree_iff` — **PROVED**: of any document, the volumes read are the volumes bound
  (`VolumesAgree`) exactly when no tag hides one from `render` (`Reached`).

Hypotheses, named: the keys of a map are distinct (`WellKeyed`), as in the YAML library's maps.
-/

namespace PveCompose

/-! ### Maps -/

theorem isKey_iff {k : Text} {v : Value} : v.isKey k = true ↔ v = .string k := by
  cases v with
  | string s =>
    show decide (s = k) = true ↔ _
    rw [decide_eq_true_eq, Value.string.injEq]
  | _ => exact iff_of_false Bool.false_ne_true nofun

theorem get_cons (e : Value × Value) (m : Mapping) (k : Text) :
    Mapping.get (e :: m) k = if e.1.isKey k then some e.2 else Mapping.get m k := by
  rw [Mapping.get, List.find?_cons, Mapping.get]
  cases e.1.isKey k <;> rfl

/-- A lookup in a map whose values were changed under their keys. -/
theorem get_map (f : Value → Value → Value) (m : Mapping) (k : Text) :
    Mapping.get (m.map fun e => (e.1, f e.1 e.2)) k = (Mapping.get m k).map (f (.string k)) := by
  induction m with
  | nil => rfl
  | cons e m ih =>
    rw [List.map_cons, get_cons, get_cons, ih]
    split_ifs with hkey
    · rw [isKey_iff.mp hkey]
      rfl
    · rfl

/-- In a map of distinct keys the entry found is the one. -/
theorem get_of_mem {m : Mapping} (hnodup : (m.map Prod.fst).Nodup) {k : Text} {v : Value}
    (h : (.string k, v) ∈ m) : Mapping.get m k = some v := by
  induction m with
  | nil => exact absurd h List.not_mem_nil
  | cons e m ih =>
    rw [List.map_cons, List.nodup_cons] at hnodup
    rcases List.mem_cons.mp h with rfl | hm
    · rw [get_cons, if_pos (isKey_iff.mpr rfl)]
    · have hne : ¬ e.1.isKey k = true := by
        rw [isKey_iff]
        intro heq
        exact hnodup.1 (heq ▸ List.mem_map_of_mem hm)
      rw [get_cons, if_neg hne]
      exact ih hnodup.2 hm

theorem mem_of_get {m : Mapping} {k : Text} {v : Value} (h : Mapping.get m k = some v) :
    (.string k, v) ∈ m := by
  obtain ⟨e, he, rfl⟩ := Option.map_eq_some_iff.mp h
  have hkey := isKey_iff.mp (List.find?_some (p := fun e : Value × Value => e.1.isKey k) he)
  rw [← hkey]
  exact List.mem_of_find?_eq_some he

/-- An `insert` under a key that is there keeps the keys and their order. -/
theorem insert_of_mem {m : Mapping} {k : Text} (h : Value.string k ∈ m.map Prod.fst) (v : Value) :
    Mapping.insert m k v = m.map fun e => (e.1, if e.1.isKey k then v else e.2) := by
  have hany : (m.any fun e => e.1.isKey k) = true := by
    obtain ⟨e, he, hkey⟩ := List.mem_map.mp h
    exact List.any_eq_true.mpr ⟨e, he, isKey_iff.mpr hkey⟩
  rw [Mapping.insert, if_pos hany]
  refine List.map_congr_left fun e _ => ?_
  split_ifs <;> rfl

/-- One under a new key is the last. -/
theorem insert_of_not_mem {m : Mapping} {k : Text} (h : Value.string k ∉ m.map Prod.fst) (v : Value) :
    Mapping.insert m k v = m ++ [(.string k, v)] := by
  have hany : ¬ (m.any fun e => e.1.isKey k) = true := by
    rw [List.any_eq_true]
    rintro ⟨e, he, hkey⟩
    exact h (List.mem_map.mpr ⟨e, he, isKey_iff.mp hkey⟩)
  exact if_neg hany

theorem keys_insert_subset (m : Mapping) (k : Text) (v : Value) :
    m.map Prod.fst ⊆ (Mapping.insert m k v).map Prod.fst := by
  by_cases h : Value.string k ∈ m.map Prod.fst
  · rw [insert_of_mem h, List.map_map]
    exact List.Subset.refl _
  · rw [insert_of_not_mem h, List.map_append]
    exact List.subset_append_left _ _

theorem key_mem_insert (m : Mapping) (k : Text) (v : Value) :
    Value.string k ∈ (Mapping.insert m k v).map Prod.fst := by
  by_cases h : Value.string k ∈ m.map Prod.fst
  · exact keys_insert_subset m k v h
  · rw [insert_of_not_mem h, List.map_append]
    exact List.mem_append_right _ (List.mem_singleton_self _)

/-! ### Substitution in a tree -/

theorem walkEntries_eq_map (vars : List (Text × Text)) (m : Mapping) :
    walkEntries vars m = m.map fun e => (e.1, walk vars e.2) := by
  induction m with
  | nil => rfl
  | cons e m ih => rw [List.map_cons, ← ih, walkEntries]

theorem walk_mapping (vars : List (Text × Text)) (m : Mapping) :
    walk vars (.mapping m) = .mapping (m.map fun e => (e.1, walk vars e.2)) := by
  rw [walk, walkEntries_eq_map]

theorem walk_tagged (vars : List (Text × Text)) (t : Text) (v : Value) :
    walk vars (.tagged t v) = .tagged t (walk vars v) := by rw [walk]

theorem asMapping_tagged (t : Text) (v : Value) : (Value.tagged t v).asMapping = v.asMapping := rfl

theorem asMapping_walk (vars : List (Text × Text)) : ∀ v : Value,
    (walk vars v).asMapping = v.asMapping.map fun m => m.map fun e => (e.1, walk vars e.2)
  | .tagged t v => by
    rw [walk_tagged, asMapping_tagged, asMapping_tagged]
    exact asMapping_walk vars v
  | .mapping m => by
    rw [walk_mapping]
    rfl
  | .string _ => by rw [walk]; rfl
  | .sequence _ => by rw [walk]; rfl
  | .null => rfl
  | .bool _ => rfl
  | .number _ => rfl

theorem get_walk (vars : List (Text × Text)) (v : Value) (k : Text) :
    (walk vars v).get k = (v.get k).map (walk vars) := by
  rw [Value.get, asMapping_walk, Value.get]
  cases v.asMapping with
  | none => rfl
  | some m => exact get_map (fun _ => walk vars) m k

/-! ### The volumes read -/

/-- Declared external: no volume of ours. -/
def DeclaredExternal (d : Value) : Prop := (d.get "external").bind flagOf = some true

theorem readVolume_name {limits : Limits} {name : Text} {d : Value} {v : Volume}
    (h : readVolume limits name d = .ok v) : v.name = name := by
  obtain ⟨ox, -, h⟩ := bind_eq_ok.mp h
  cases ox with
  | none =>
    cases h
    rfl
  | some x =>
    obtain ⟨_, -, h⟩ := bind_eq_ok.mp h
    obtain ⟨kind, -, h⟩ := bind_eq_ok.mp h
    cases h
    rfl

theorem readEntry_none {limits : Limits} {e : Value × Value}
    (h : readEntry limits e = .ok none) : DeclaredExternal e.2 := by
  unfold readEntry at h
  split at h
  · exact absurd h bail_ne_ok
  split at h
  · exact absurd h bail_ne_ok
  split at h
  · split_ifs at h with hexternal
    · exact hexternal
    · obtain ⟨v, -, h⟩ := bind_eq_ok.mp h
      cases h
  · split_ifs at h with hexternal
    · exact hexternal
    · obtain ⟨v, -, h⟩ := bind_eq_ok.mp h
      cases h
  · exact absurd h bail_ne_ok

/-- What was read of a `volumes` map. -/
structure ReadFrom (m : Mapping) (vols : List Volume) : Prop where
  /-- Every entry is external, or a volume under the name its key reads as. -/
  covered : ∀ e ∈ m, DeclaredExternal e.2 ∨ ∃ v ∈ vols, e.1.asStr = some v.name
  /-- Every volume is an entry's. -/
  found : ∀ v ∈ vols, ∃ e ∈ m, e.1.asStr = some v.name
  names : (vols.map fun v => some v.name).Sublist (m.map fun e => e.1.asStr)

theorem readFrom_of_mapM {limits : Limits} {m : Mapping} {read : List (Option Volume)}
    (h : m.mapM (readEntry limits) = .ok read) : ReadFrom m (read.filterMap id) := by
  have hsome : ∀ e v, readEntry limits e = .ok (some v) → e.1.asStr = some v.name := by
    intro e v he
    obtain ⟨name, hname, -, -, -, hread⟩ := readEntry_some he
    rw [readVolume_name hread, hname]
  refine ⟨fun e he => ?_, fun v hv => ?_, ?_⟩
  · obtain ⟨ov, hov, hread⟩ := mapM_of_mem h he
    cases ov with
    | none => exact .inl (readEntry_none hread)
    | some v => exact .inr ⟨v, List.mem_filterMap.mpr ⟨_, hov, rfl⟩, hsome e v hread⟩
  · obtain ⟨ov, hov, hid⟩ := List.mem_filterMap.mp hv
    obtain ⟨e, he, hread⟩ := of_mem_mapM h hov
    rw [show ov = some v from hid] at hread
    exact ⟨e, he, hsome e v hread⟩
  · induction m generalizing read with
    | nil =>
      cases h
      exact List.Sublist.slnil
    | cons e m ih =>
      rw [List.mapM_cons, bind_eq_ok] at h
      obtain ⟨ov, hov, h⟩ := h
      obtain ⟨rest, hrest, h⟩ := bind_eq_ok.mp h
      cases h
      cases ov with
      | none => exact (ih hrest).cons _
      | some v =>
        have hkey := hsome e v hov
        rw [List.map_cons, hkey]
        exact (ih hrest).cons_cons _

/-- The map of volumes, through a tag. -/
def volumesOf (spec : Value) : Option Mapping := (spec.get "volumes").bind Value.asMapping

theorem volumes_readFrom {spec : Value} {limits : Limits} {vols : List Volume}
    (h : volumes spec limits = .ok vols) : ReadFrom ((volumesOf spec).getD []) vols := by
  have hempty : ReadFrom [] [] := ⟨fun _ h => absurd h List.not_mem_nil,
    fun _ h => absurd h List.not_mem_nil, List.Sublist.slnil⟩
  unfold volumes at h
  unfold volumesOf
  split at h
  · rename_i hget
    cases h
    rw [hget]
    exact hempty
  · rename_i d hget
    rw [hget, Option.bind_some]
    split_ifs at h with hnull
    · cases h
      have hmap : d.asMapping = none := by
        unfold Value.isNull at hnull
        unfold Value.asMapping
        split at hnull
        · rename_i heq
          rw [heq]
        · cases hnull
      rw [hmap]
      exact hempty
    · split at h
      · exact absurd h bail_ne_ok
      · rename_i m hmap
        obtain ⟨read, hread, h⟩ := bind_eq_ok.mp h
        cases h
        rw [hmap]
        exact readFrom_of_mapM hread

/-! ### The rendered volumes -/

/-- What `render` makes of the value of `volumes`. -/
def bindIn (vols : List Volume) : Value → Value
  | .mapping m => .mapping (bindVolumes vols m)
  | v => v

theorem get_renderName (project : Text) (v : Value) :
    (renderName project v).get "volumes" = v.get "volumes" := by
  cases v with
  | mapping top =>
    show Mapping.get ((.string "name", .string project) :: _) "volumes" = Mapping.get top "volumes"
    have hname : ¬ (Value.string "name").isKey "volumes" = true := by decide
    rw [get_cons, if_neg hname]
    induction top with
    | nil => rfl
    | cons e top ih =>
      rw [List.filter_cons]
      split_ifs with hkeep
      · rw [get_cons, get_cons, ih]
      · have hkey : ¬ e.1.isKey "volumes" = true := by
          rw [isKey_iff]
          intro hkey
          rw [hkey] at hkeep
          exact hkeep (by decide)
        rw [get_cons, if_neg hkey, ih]
  | _ => rfl

theorem renderVolumes_mapping (vols : List Volume) (top : Mapping) :
    renderVolumes vols (.mapping top) = .mapping (top.map fun e =>
      (e.1, if e.1.isKey "volumes" then bindIn vols e.2 else e.2)) := by
  rw [renderVolumes]
  refine congrArg Value.mapping (List.map_congr_left fun e _ => ?_)
  obtain ⟨k, v⟩ := e
  split_ifs
  · cases v <;> rfl
  · rfl

theorem get_renderVolumes (vols : List Volume) : ∀ v : Value,
    (renderVolumes vols v).get "volumes" = (v.get "volumes").map (bindIn vols)
  | .tagged t v => by
    rw [renderVolumes]
    exact get_renderVolumes vols v
  | .mapping top => by
    have hkey : (Value.string "volumes").isKey "volumes" = true := by decide
    rw [renderVolumes_mapping]
    refine (get_map (fun k v => if k.isKey "volumes" then bindIn vols v else v) top _).trans ?_
    simp only [hkey, if_true]
    rfl
  | .string _ => rfl
  | .sequence _ => rfl
  | .null => rfl
  | .bool _ => rfl
  | .number _ => rfl

/-- **The rendered `volumes` (proved).** -/
theorem get_renderValue (spec : Value) (vols : List Volume) (vars : Vars) :
    (renderValue spec vols vars).get "volumes"
      = (spec.get "volumes").map fun v => bindIn vols (walk vars.map v) := by
  rw [renderValue, get_renderVolumes, get_renderName, get_walk, Option.map_map]
  rfl

/-! ### The definitions replaced -/

theorem bindVolumes_cons (v : Volume) (vols : List Volume) (m : Mapping) : bindVolumes (v :: vols) m
    = bindVolumes vols (Mapping.insert m v.name (bindDef v (Mapping.get m v.name))) := rfl

theorem keys_bindVolumes_subset (vols : List Volume) (m : Mapping) :
    m.map Prod.fst ⊆ (bindVolumes vols m).map Prod.fst := by
  induction vols generalizing m with
  | nil => exact List.Subset.refl _
  | cons v vols ih => exact List.Subset.trans (keys_insert_subset m v.name _) (ih _)

theorem name_mem_bindVolumes {v : Volume} {vols : List Volume} (hv : v ∈ vols) (m : Mapping) :
    Value.string v.name ∈ (bindVolumes vols m).map Prod.fst := by
  induction vols generalizing m with
  | nil => exact absurd hv List.not_mem_nil
  | cons w vols ih =>
    rcases List.mem_cons.mp hv with rfl | hv
    · exact keys_bindVolumes_subset vols _ (key_mem_insert m v.name _)
    · exact ih hv _

/-- The volume an entry's key names, no tag looked through. -/
def named (vols : List Volume) (k : Value) : Option Volume := vols.find? fun v => k.isKey v.name

theorem named_eq_some {vols : List Volume} {k : Value} {v : Volume} (h : named vols k = some v) :
    v ∈ vols ∧ k = .string v.name :=
  ⟨List.mem_of_find?_eq_some h,
    isKey_iff.mp (List.find?_some (p := fun v : Volume => k.isKey v.name) h)⟩

theorem named_eq_none {vols : List Volume} {k : Value} :
    named vols k = none ↔ ∀ v ∈ vols, k ≠ .string v.name := by
  rw [named, List.find?_eq_none]
  exact forall₂_congr fun v _ => not_congr isKey_iff

/-- What `render` makes of one entry of `volumes`. -/
def bindEntry (vols : List Volume) (k d : Value) : Value :=
  match named vols k with
  | some v => bindDef v (some d)
  | none => d

/-- **Every named definition is replaced in its place, and no other (proved).** -/
theorem bindVolumes_eq_map {vols : List Volume} {m : Mapping} (hnodup : (m.map Prod.fst).Nodup)
    (hnames : (vols.map Volume.name).Nodup)
    (hkeys : ∀ v ∈ vols, Value.string v.name ∈ m.map Prod.fst) :
    bindVolumes vols m = m.map fun e => (e.1, bindEntry vols e.1 e.2) := by
  induction vols generalizing m with
  | nil => exact (List.map_id' m).symm
  | cons v vols ih =>
    rw [List.map_cons, List.nodup_cons] at hnames
    obtain ⟨hkey, hrest⟩ := List.forall_mem_cons.mp hkeys
    have hsame : (Mapping.insert m v.name (bindDef v (Mapping.get m v.name))).map Prod.fst
        = m.map Prod.fst := by
      rw [insert_of_mem hkey, List.map_map]
      rfl
    rw [bindVolumes_cons, ih (by rwa [hsame]) hnames.2 (by rwa [hsame]), insert_of_mem hkey,
      List.map_map]
    refine List.map_congr_left fun e he => Prod.ext rfl ?_
    show bindEntry vols e.1 (if e.1.isKey v.name then _ else e.2) = bindEntry (v :: vols) e.1 e.2
    by_cases hv : e.1.isKey v.name = true
    · have hget : Mapping.get m v.name = some e.2 :=
        get_of_mem hnodup (by rw [← isKey_iff.mp hv]; exact he)
      have hlater : named vols e.1 = none := by
        refine named_eq_none.mpr fun w hw heq => hnames.1 ?_
        rw [isKey_iff.mp hv, Value.string.injEq] at heq
        exact List.mem_map.mpr ⟨w, hw, heq.symm⟩
      have hnow : named (v :: vols) e.1 = some v := List.find?_cons_of_pos hv
      rw [if_pos hv, bindEntry, hlater, bindEntry, hnow, hget]
    · have hnow : named (v :: vols) e.1 = named vols e.1 := List.find?_cons_of_neg hv
      rw [if_neg hv, bindEntry, bindEntry, hnow]

/-! ### Documents without tags -/

mutual

/-- No tag in a value, on a key neither. -/
def tagFree : Value → Bool
  | .sequence items => tagFreeItems items
  | .mapping m => tagFreeEntries m
  | .tagged _ _ => false
  | _ => true

def tagFreeItems : List Value → Bool
  | [] => true
  | v :: vs => tagFree v && tagFreeItems vs

def tagFreeEntries : List (Value × Value) → Bool
  | [] => true
  | (k, v) :: es => tagFree k && tagFree v && tagFreeEntries es

end

mutual

/-- The same tree but for its strings, each replaced by `f`; keys stay. -/
inductive Substituted (f : Text → Text) : Value → Value → Prop
  | null : Substituted f .null .null
  | bool (b : Bool) : Substituted f (.bool b) (.bool b)
  | number (n : Number) : Substituted f (.number n) (.number n)
  | string (s : Text) : Substituted f (.string s) (.string (f s))
  | sequence {vs vs' : List Value} : SubstitutedItems f vs vs' →
      Substituted f (.sequence vs) (.sequence vs')
  | mapping {m m' : List (Value × Value)} : SubstitutedEntries f m m' →
      Substituted f (.mapping m) (.mapping m')

inductive SubstitutedItems (f : Text → Text) : List Value → List Value → Prop
  | nil : SubstitutedItems f [] []
  | cons {v v' : Value} {vs vs' : List Value} : Substituted f v v' → SubstitutedItems f vs vs' →
      SubstitutedItems f (v :: vs) (v' :: vs')

inductive SubstitutedEntries (f : Text → Text) :
    List (Value × Value) → List (Value × Value) → Prop
  | nil : SubstitutedEntries f [] []
  | cons {k v v' : Value} {es es' : List (Value × Value)} : Substituted f v v' →
      SubstitutedEntries f es es' → SubstitutedEntries f ((k, v) :: es) ((k, v') :: es')

end

mutual

/-- **Walking a tree without tags changes its strings and nothing else (proved).** -/
theorem substituted_walk (vars : List (Text × Text)) : ∀ v : Value, tagFree v = true →
    Substituted (fun s => substitute s vars) v (walk vars v)
  | .null, _ => .null
  | .bool b, _ => .bool b
  | .number n, _ => .number n
  | .string s, _ => .string s
  | .sequence items, h => .sequence (substituted_walkItems vars items h)
  | .mapping m, h => .mapping (substituted_walkEntries vars m h)

theorem substituted_walkItems (vars : List (Text × Text)) : ∀ vs : List Value,
    tagFreeItems vs = true → SubstitutedItems (fun s => substitute s vars) vs (walkItems vars vs)
  | [], _ => .nil
  | v :: vs, h =>
    have h := Bool.and_eq_true_iff.mp h
    .cons (substituted_walk vars v h.1) (substituted_walkItems vars vs h.2)

theorem substituted_walkEntries (vars : List (Text × Text)) : ∀ m : List (Value × Value),
    tagFreeEntries m = true →
      SubstitutedEntries (fun s => substitute s vars) m (walkEntries vars m)
  | [], _ => .nil
  | (_, v) :: es, h =>
    have h := Bool.and_eq_true_iff.mp h
    .cons (substituted_walk vars v (Bool.and_eq_true_iff.mp h.1).2)
      (substituted_walkEntries vars es h.2)

end

theorem of_tagFreeEntries {m : Mapping} (h : tagFreeEntries m = true) {e : Value × Value}
    (he : e ∈ m) : tagFree e.1 = true ∧ tagFree e.2 = true := by
  induction m with
  | nil => exact absurd he List.not_mem_nil
  | cons e' m ih =>
    obtain ⟨k, v⟩ := e'
    have h := Bool.and_eq_true_iff.mp h
    rcases List.mem_cons.mp he with rfl | he
    · exact Bool.and_eq_true_iff.mp h.1
    · exact ih h.2 he

theorem eq_string_of_tagFree {k : Value} (h : tagFree k = true) {s : Text}
    (hs : k.asStr = some s) : k = .string s := by
  cases k with
  | string s' => rw [Option.some.inj hs]
  | tagged t v => exact absurd h Bool.false_ne_true
  | _ => cases hs

/-! ### One entry for each name -/

theorem count_names_le {m : Mapping} {vols : List Volume} (hread : ReadFrom m vols) (n : Text) :
    (vols.map Volume.name).count n ≤ m.countP fun e => e.1.asStr = some n := by
  have hvols : (vols.map Volume.name).count n = (vols.map fun v => some v.name).count (some n) := by
    rw [← List.count_map_of_injective _ some (Option.some_injective _), List.map_map]
    rfl
  rw [hvols]
  refine (hread.names.count_le _).trans (le_of_eq ?_)
  rw [List.count, List.countP_map]
  exact List.countP_congr fun e _ => by simp

/-- The keys that read as a volume's name are that plain string. -/
def PlainKeys (m : Mapping) (vols : List Volume) : Prop :=
  ∀ e ∈ m, ∀ v ∈ vols, e.1.asStr = some v.name → e.1 = .string v.name

section PlainKeys

variable {m : Mapping} {vols : List Volume}

theorem countP_name_le (hnodup : (m.map Prod.fst).Nodup) (hplain : PlainKeys m vols) {v : Volume}
    (hv : v ∈ vols) : (m.countP fun e => e.1.asStr = some v.name) ≤ 1 := by
  classical
  calc (m.countP fun e => e.1.asStr = some v.name)
      ≤ m.countP fun e => e.1 = .string v.name := by
        refine List.countP_mono_left fun e he h => ?_
        exact decide_eq_true (hplain e he v hv (of_decide_eq_true h))
    _ = (m.map Prod.fst).count (.string v.name) := by
        rw [List.count, List.countP_map]
        exact List.countP_congr fun e _ => by simp
    _ ≤ 1 := List.nodup_iff_count_le_one.mp hnodup _

theorem names_nodup (hread : ReadFrom m vols) (hnodup : (m.map Prod.fst).Nodup)
    (hplain : PlainKeys m vols) : (vols.map Volume.name).Nodup := by
  refine List.nodup_iff_count_le_one.mpr fun n => ?_
  by_cases hn : n ∈ vols.map Volume.name
  · obtain ⟨v, hv, rfl⟩ := List.mem_map.mp hn
    exact (count_names_le hread _).trans (countP_name_le hnodup hplain hv)
  · rw [List.count_eq_zero.mpr hn]
    exact Nat.zero_le 1

theorem names_mem (hread : ReadFrom m vols) (hplain : PlainKeys m vols) :
    ∀ v ∈ vols, Value.string v.name ∈ m.map Prod.fst := by
  intro v hv
  obtain ⟨e, he, hkey⟩ := hread.found v hv
  exact List.mem_map.mpr ⟨e, he, hplain e he v hv hkey⟩

end PlainKeys

/-! ### The rendered document -/

/-- The keys of every map in a value are distinct. -/
inductive WellKeyed : Value → Prop
  | null : WellKeyed .null
  | bool (b : Bool) : WellKeyed (.bool b)
  | number (n : Number) : WellKeyed (.number n)
  | string (s : Text) : WellKeyed (.string s)
  | sequence {vs : List Value} : (∀ v ∈ vs, WellKeyed v) → WellKeyed (.sequence vs)
  | mapping {m : List (Value × Value)} : (m.map Prod.fst).Nodup → (∀ e ∈ m, WellKeyed e.1) →
      (∀ e ∈ m, WellKeyed e.2) → WellKeyed (.mapping m)
  | tagged {t : Text} {v : Value} : WellKeyed v → WellKeyed (.tagged t v)

theorem WellKeyed.untag {v : Value} (h : WellKeyed v) : WellKeyed v.untag := by
  induction h with
  | tagged _ ih => exact ih
  | sequence h => exact .sequence h
  | mapping hnodup hkeys hvalues => exact .mapping hnodup hkeys hvalues
  | null => exact .null
  | bool b => exact .bool b
  | number n => exact .number n
  | string s => exact .string s

theorem WellKeyed.asMapping {v : Value} (h : WellKeyed v) {m : Mapping} (hm : v.asMapping = some m) :
    (m.map Prod.fst).Nodup ∧ ∀ e ∈ m, WellKeyed e.2 := by
  have huntag : v.untag = .mapping m := by
    unfold Value.asMapping at hm
    split at hm
    · rename_i m' heq
      rw [heq, Option.some.inj hm]
    · cases hm
  have hmap := h.untag
  rw [huntag] at hmap
  cases hmap with
  | mapping hnodup _ hvalues => exact ⟨hnodup, hvalues⟩

theorem WellKeyed.volumesOf {spec : Value} (h : WellKeyed spec) {m : Mapping}
    (hm : volumesOf spec = some m) : (m.map Prod.fst).Nodup := by
  obtain ⟨d, hd, hm⟩ := Option.bind_eq_some_iff.mp hm
  obtain ⟨top, htop, hget⟩ := Option.bind_eq_some_iff.mp hd
  exact (((h.asMapping htop).2 _ (mem_of_get hget)).asMapping hm).1

/-- The name an author gave a volume. -/
def authored : Value → Option Value
  | .mapping m => Mapping.get m "name"
  | _ => none

/-- A managed definition and the bind it is rendered as: the author's name is kept, and nothing
else. -/
inductive Bound (f : Text → Text) (v : Volume) (d : Value) : Value → Prop
  | unnamed : authored d = none → Bound f v d (.mapping [(.string "driver", .string "local"),
      (.string "driver_opts", .mapping [(.string "type", .string "none"),
        (.string "o", .string "bind"), (.string "device", .string v.dir)])])
  | named {n n' : Value} : authored d = some n → Substituted f n n' →
      Bound f v d (.mapping [(.string "driver", .string "local"),
        (.string "driver_opts", .mapping [(.string "type", .string "none"),
          (.string "o", .string "bind"), (.string "device", .string v.dir)]), (.string "name", n')])

/-- An entry of `volumes`, and the one rendered: a volume's bind, or an external definition. -/
inductive VolumeRendered (f : Text → Text) (vols : List Volume) :
    Value × Value → Value × Value → Prop
  | managed {v : Volume} {d d' : Value} : v ∈ vols → Bound f v d d' →
      VolumeRendered f vols (.string v.name, d) (.string v.name, d')
  | external {k d d' : Value} : DeclaredExternal d → (∀ v ∈ vols, k ≠ .string v.name) →
      Substituted f d d' → VolumeRendered f vols (k, d) (k, d')

/-- An entry of the document, and the one rendered. -/
inductive EntryRendered (f : Text → Text) (vols : List Volume) :
    Value × Value → Value × Value → Prop
  | volumes {m m' : Mapping} : List.Forall₂ (VolumeRendered f vols) m m' →
      EntryRendered f vols (.string "volumes", .mapping m) (.string "volumes", .mapping m')
  | other {k v v' : Value} : (k = .string "volumes" → v.asMapping = none) → Substituted f v v' →
      EntryRendered f vols (k, v) (k, v')

/-- The document and the one rendered: the project's name first, then every other entry in order. -/
structure Rendered (project : Text) (f : Text → Text) (vols : List Volume) (top top' : Mapping) :
    Prop where
  head : top'.head? = some (.string "name", .string project)
  tail : List.Forall₂ (EntryRendered f vols) (top.filter fun e => ! e.1.isKey "name") top'.tail
  /-- Every managed volume has its entry. -/
  volumes : ∀ v ∈ vols, ∃ m, (.string "volumes", .mapping m) ∈ top ∧
    Value.string v.name ∈ m.map Prod.fst

section Frame

variable {vols : List Volume} {vars : List (Text × Text)}

theorem bound_bindDef (v : Volume) {d : Value} (htags : tagFree d = true) :
    Bound (fun s => substitute s vars) v d (bindDef v (some (walk vars d))) := by
  cases d with
  | mapping m =>
    have hget : Mapping.get (m.map fun e => (e.1, walk vars e.2)) "name"
        = (Mapping.get m "name").map (walk vars) := get_map (fun _ => walk vars) m "name"
    cases hn : Mapping.get m "name" with
    | none =>
      have hdef : bindDef v (some (walk vars (.mapping m))) = bindDef v none := by
        rw [walk_mapping, bindDef, hget, hn]
        rfl
      rw [hdef]
      exact .unnamed hn
    | some n =>
      have hdef : bindDef v (some (walk vars (.mapping m)))
          = bindDef v (some (.mapping [(.string "name", walk vars n)])) := by
        rw [walk_mapping, bindDef, hget, hn]
        rfl
      rw [hdef]
      exact .named hn (substituted_walk vars n (of_tagFreeEntries htags (mem_of_get hn)).2)
  | tagged t d => exact absurd htags Bool.false_ne_true
  | string s => exact .unnamed rfl
  | sequence vs => exact .unnamed rfl
  | null => exact .unnamed rfl
  | bool b => exact .unnamed rfl
  | number n => exact .unnamed rfl

theorem plainKeys_of_tagFree {m : Mapping} (htags : tagFreeEntries m = true) : PlainKeys m vols :=
  fun _ he _ _ hkey => eq_string_of_tagFree (of_tagFreeEntries htags he).1 hkey

theorem volumes_rendered {m : Mapping} (hread : ReadFrom m vols) (hnodup : (m.map Prod.fst).Nodup)
    (htags : tagFreeEntries m = true) : List.Forall₂ (VolumeRendered (fun s => substitute s vars) vols)
      m (bindVolumes vols (m.map fun e => (e.1, walk vars e.2))) := by
  have hplain : PlainKeys m vols := plainKeys_of_tagFree htags
  have hsame : (m.map fun e => (e.1, walk vars e.2)).map Prod.fst = m.map Prod.fst := by
    rw [List.map_map]
    rfl
  rw [bindVolumes_eq_map (by rwa [hsame]) (names_nodup hread hnodup hplain)
    (by rw [hsame]; exact names_mem hread hplain), List.map_map, List.forall₂_map_right_iff,
    List.forall₂_same]
  intro e he
  obtain ⟨hkey, hvalue⟩ := of_tagFreeEntries htags he
  obtain ⟨k, d⟩ := e
  show VolumeRendered _ vols (k, d) (k, bindEntry vols k (walk vars d))
  rw [bindEntry]
  cases hnamed : named vols k with
  | some v =>
    obtain ⟨hv, rfl⟩ := named_eq_some hnamed
    exact .managed hv (bound_bindDef v hvalue)
  | none =>
    have hother := named_eq_none.mp hnamed
    rcases hread.covered _ he with hexternal | ⟨v, hv, hname⟩
    · exact .external hexternal hother (substituted_walk vars d hvalue)
    · exact absurd (hplain _ he v hv hname) (hother v hv)

end Frame

/-- **Of a document without tags the rendered one is the document with its volumes bound (proved).** -/
theorem render_frame {top : Mapping} {limits : Limits} {vols : List Volume}
    (hkeys : WellKeyed (.mapping top)) (htags : tagFree (.mapping top) = true)
    (hvols : volumes (.mapping top) limits = .ok vols) (vars : Vars) :
    ∃ top', renderValue (.mapping top) vols vars = .mapping top' ∧
      Rendered vars.project (fun s => substitute s vars.map) vols top top' := by
  have htop : (top.map Prod.fst).Nodup := (hkeys.asMapping rfl).1
  have hread := volumes_readFrom hvols
  have hvalue : renderValue (.mapping top) vols vars
      = .mapping (((.string "name", .string vars.project) ::
          (top.map fun e => (e.1, walk vars.map e.2)).filter fun e =>
            e.1.asStr ≠ some "name".toList).map fun e =>
          (e.1, if e.1.isKey "volumes" then bindIn vols e.2 else e.2)) := by
    rw [renderValue, walk_mapping, renderName, renderVolumes_mapping]
  refine ⟨_, hvalue, rfl, ?_, fun v hv => ?_⟩
  · have hfilter : ((top.map fun e => (e.1, walk vars.map e.2)).filter fun e =>
          e.1.asStr ≠ some "name".toList)
        = (top.filter fun e => ! e.1.isKey "name").map fun e => (e.1, walk vars.map e.2) := by
      rw [List.filter_map]
      refine congrArg _ (List.filter_congr fun e he => ?_)
      have hkey := (of_tagFreeEntries htags he).1
      show decide (e.1.asStr ≠ some "name".toList) = ! e.1.isKey "name"
      rw [Bool.eq_iff_iff, decide_eq_true_eq, Bool.not_eq_true', ← Bool.not_eq_true, isKey_iff]
      refine not_congr ⟨fun h => eq_string_of_tagFree hkey h, fun h => ?_⟩
      rw [h]
      rfl
    rw [List.map_cons, List.tail_cons, hfilter, List.map_map, List.forall₂_map_right_iff,
      List.forall₂_same]
    intro e he
    have hmem := (List.mem_filter.mp he).1
    obtain ⟨k, d⟩ := e
    have hd : tagFree d = true := (of_tagFreeEntries htags hmem).2
    show EntryRendered _ vols (k, d)
      (k, if k.isKey "volumes" then bindIn vols (walk vars.map d) else walk vars.map d)
    by_cases hk : k = .string "volumes"
    · subst hk
      rw [if_pos (isKey_iff.mpr rfl)]
      cases d with
      | mapping m =>
        have hget : (Value.mapping top).get "volumes" = some (.mapping m) := get_of_mem htop hmem
        have hof : volumesOf (.mapping top) = some m := by
          rw [volumesOf, hget]
          rfl
        rw [hof] at hread
        rw [walk_mapping]
        exact .volumes (volumes_rendered hread (hkeys.volumesOf hof) hd)
      | tagged t v => exact absurd hd Bool.false_ne_true
      | string s => exact .other (fun _ => rfl) (.string s)
      | sequence vs => exact .other (fun _ => rfl) (substituted_walk _ _ hd)
      | null => exact .other (fun _ => rfl) .null
      | bool b => exact .other (fun _ => rfl) (.bool b)
      | number n => exact .other (fun _ => rfl) (.number n)
    · rw [if_neg (fun h => hk (isKey_iff.mp h))]
      exact .other (fun h => absurd h hk) (substituted_walk _ _ hd)
  · cases hof : volumesOf (.mapping top) with
    | none =>
      rw [hof] at hread
      obtain ⟨e, he, -⟩ := hread.found v hv
      exact absurd he List.not_mem_nil
    | some m =>
      rw [hof] at hread
      obtain ⟨d, hd, hm⟩ := Option.bind_eq_some_iff.mp hof
      have hmem : (.string "volumes", d) ∈ top := mem_of_get hd
      have htagd : tagFree d = true := (of_tagFreeEntries htags hmem).2
      obtain rfl : d = .mapping m := by
        cases d with
        | mapping m' => rw [Option.some.inj hm]
        | tagged t v => exact absurd htagd Bool.false_ne_true
        | _ => cases hm
      exact ⟨m, hmem, names_mem hread (plainKeys_of_tagFree htagd) v hv⟩

/-! ### Documents with tags -/

/-- The `local` bind of a volume's directory, in any order of its keys, and with any name. -/
def IsBind (v : Volume) (d : Value) : Prop := ∃ m opts name : Mapping, d = .mapping m ∧
  m.Perm ([(.string "driver", .string "local"), (.string "driver_opts", .mapping opts)] ++ name) ∧
  opts.Perm [(.string "type", .string "none"), (.string "o", .string "bind"),
    (.string "device", .string v.dir)] ∧ (name = [] ∨ ∃ n, name = [(.string "name", n)])

/-- The entries whose key reads as a name. -/
def readAs (m : Mapping) (n : Text) : Mapping := m.filter fun e => e.1.asStr = some n

/-- What is managed is what is bound. -/
structure VolumesAgree (spec : Value) (vols : List Volume) (vars : Vars) : Prop where
  names : (vols.map Volume.name).Nodup
  bound : ∀ v ∈ vols, ∃ m e, volumesOf (renderValue spec vols vars) = some m ∧
    readAs m v.name = [e] ∧ IsBind v e.2
  others : ∀ m, volumesOf (renderValue spec vols vars) = some m → ∀ e ∈ m,
    e.2.get "x-pve" ≠ none → ∃ d, (e.1, d) ∈ (volumesOf spec).getD [] ∧ DeclaredExternal d

/-- No tag hides a volume from `render`: without one on `volumes` itself, the keys that read as a
volume's name have none either; under one, which `render` does not look through, what the author
wrote is the bind already. -/
def Reached (spec : Value) (vols : List Volume) (vars : Vars) : Prop :=
  match spec.get "volumes" with
  | some (.mapping m) => PlainKeys m vols
  | _ => ∀ v ∈ vols, ∃ e, readAs ((volumesOf spec).getD []) v.name = [e] ∧
      IsBind v (walk vars.map e.2)

theorem isBind_bindDef {v w : Volume} (h : v.name = w.name) (old : Option Value) :
    IsBind v (bindDef w old) := by
  have hdir : v.dir = w.dir := by rw [Volume.dir, Volume.dir, h]
  refine ⟨_, _, _, rfl, List.Perm.refl _, by rw [hdir], ?_⟩
  split
  · rename_i m
    cases Mapping.get m "name" with
    | none => exact .inl rfl
    | some n => exact .inr ⟨n, rfl⟩
  · exact .inl rfl

theorem not_xpve_of_isBind {v : Volume} {d : Value} (h : IsBind v d) : d.get "x-pve" = none := by
  obtain ⟨m, opts, name, rfl, hperm, -, hname⟩ := h
  show Mapping.get m "x-pve" = none
  rw [Mapping.get, Option.map_eq_none_iff, List.find?_eq_none]
  intro e he
  rw [isKey_iff]
  have hkeys : ∀ s ∈ ["driver".toList, "driver_opts".toList, "name".toList],
      Value.string s ≠ .string "x-pve" := by
    intro s hs h
    rw [Value.string.inj h] at hs
    exact absurd hs (by decide)
  have hmem : ∃ s ∈ ["driver".toList, "driver_opts".toList, "name".toList], e.1 = .string s := by
    rcases List.mem_append.mp (hperm.mem_iff.mp he) with hfixed | hnamed
    · rcases List.mem_cons.mp hfixed with rfl | hopts
      · exact ⟨_, by decide, rfl⟩
      · obtain rfl := List.mem_singleton.mp hopts
        exact ⟨_, by decide, rfl⟩
    · rcases hname with rfl | ⟨n, rfl⟩
      · exact absurd hnamed List.not_mem_nil
      · obtain rfl := List.mem_singleton.mp hnamed
        exact ⟨_, by decide, rfl⟩
  obtain ⟨s, hs, hkey⟩ := hmem
  rw [hkey]
  exact hkeys s hs

theorem readAs_eq_singleton {m : Mapping} {n : Text} {e : Value × Value} (he : e ∈ m)
    (hkey : e.1.asStr = some n) (hcount : (m.countP fun e => e.1.asStr = some n) ≤ 1) :
    readAs m n = [e] := by
  rw [List.countP_eq_length_filter] at hcount
  have hmem : e ∈ readAs m n := List.mem_filter.mpr ⟨he, decide_eq_true hkey⟩
  obtain ⟨e', he'⟩ := List.length_eq_one_iff.mp (le_antisymm hcount (List.length_pos_of_mem hmem))
  have hsingle : readAs m n = [e'] := he'
  rw [hsingle] at hmem ⊢
  rw [List.mem_singleton.mp hmem]

theorem readAs_map (f : Value → Value → Value) (m : Mapping) (n : Text) :
    readAs (m.map fun e => (e.1, f e.1 e.2)) n = (readAs m n).map fun e => (e.1, f e.1 e.2) := by
  rw [readAs, List.filter_map]
  rfl

theorem mem_readAs {m : Mapping} {n : Text} {e : Value × Value} :
    e ∈ readAs m n ↔ e ∈ m ∧ e.1.asStr = some n := by
  rw [readAs, List.mem_filter, decide_eq_true_eq]

section Agree

variable {spec : Value} {vols : List Volume} {vars : Vars}

theorem isBind_bindEntry {v : Volume} (hv : v ∈ vols) (old : Value) :
    IsBind v (bindEntry vols (.string v.name) old) := by
  rw [bindEntry]
  cases hnamed : named vols (.string v.name) with
  | some w =>
    obtain ⟨-, hw⟩ := named_eq_some hnamed
    exact isBind_bindDef (Value.string.inj hw) _
  | none => exact absurd rfl (named_eq_none.mp hnamed v hv)

/-- Without a tag on `volumes`. -/
theorem agree_iff_of_mapping {m : Mapping} (hget : spec.get "volumes" = some (.mapping m))
    (hnodup : (m.map Prod.fst).Nodup) (hread : ReadFrom m vols) :
    VolumesAgree spec vols vars ↔ PlainKeys m vols := by
  have hof : volumesOf spec = some m := by rw [volumesOf, hget]; rfl
  have hrendered : volumesOf (renderValue spec vols vars)
      = some (bindVolumes vols (m.map fun e => (e.1, walk vars.map e.2))) := by
    rw [volumesOf, get_renderValue, hget, Option.map_some, walk_mapping]
    rfl
  have hsame : (m.map fun e => (e.1, walk vars.map e.2)).map Prod.fst = m.map Prod.fst := by
    rw [List.map_map]
    rfl
  constructor
  · intro hagree e he v hv hkey
    obtain ⟨m', x, hm', hone, -⟩ := hagree.bound v hv
    obtain rfl := Option.some.inj (hrendered.symm.trans hm')
    have honly : ∀ k ∈ (bindVolumes vols (m.map fun e => (e.1, walk vars.map e.2))).map Prod.fst,
        k.asStr = some v.name → k = x.1 := by
      intro k hk hread
      obtain ⟨y, hy, rfl⟩ := List.mem_map.mp hk
      have hmem := mem_readAs.mpr ⟨hy, hread⟩
      rw [hone] at hmem
      rw [List.mem_singleton.mp hmem]
    have hkept : e.1 ∈ (bindVolumes vols (m.map fun e => (e.1, walk vars.map e.2))).map Prod.fst := by
      refine keys_bindVolumes_subset vols _ ?_
      rw [hsame]
      exact List.mem_map_of_mem he
    rw [honly _ hkept hkey, ← honly _ (name_mem_bindVolumes hv _) rfl]
  · intro hplain
    have hnames := names_nodup hread hnodup hplain
    have hbound : bindVolumes vols (m.map fun e => (e.1, walk vars.map e.2))
        = m.map fun e => (e.1, bindEntry vols e.1 (walk vars.map e.2)) := by
      rw [bindVolumes_eq_map (by rwa [hsame]) hnames (by rw [hsame]; exact names_mem hread hplain),
        List.map_map]
      rfl
    rw [hbound] at hrendered
    refine ⟨hnames, fun v hv => ?_, fun m' hm' e' he' hx => ?_⟩
    · obtain ⟨e, he, hkey⟩ := hread.found v hv
      have hone := readAs_eq_singleton he hkey (countP_name_le hnodup hplain hv)
      refine ⟨_, (e.1, bindEntry vols e.1 (walk vars.map e.2)), hrendered, ?_, ?_⟩
      · rw [readAs_map (fun k d => bindEntry vols k (walk vars.map d)), hone]
        rfl
      · show IsBind v (bindEntry vols e.1 (walk vars.map e.2))
        rw [hplain e he v hv hkey]
        exact isBind_bindEntry hv _
    · obtain rfl := Option.some.inj (hrendered.symm.trans hm')
      obtain ⟨e, he, rfl⟩ := List.mem_map.mp he'
      rw [hof]
      refine ⟨e.2, he, ?_⟩
      rcases hread.covered e he with hexternal | ⟨v, hv, hkey⟩
      · exact hexternal
      · have hk := hplain e he v hv hkey
        have hbind : IsBind v (bindEntry vols e.1 (walk vars.map e.2)) := by
          rw [hk]
          exact isBind_bindEntry hv _
        exact absurd (not_xpve_of_isBind hbind) hx

/-- Under a tag, or without a map. -/
theorem agree_iff_of_not_mapping (hget : ∀ m, spec.get "volumes" ≠ some (.mapping m))
    (hread : ReadFrom ((volumesOf spec).getD []) vols) :
    VolumesAgree spec vols vars ↔ ∀ v ∈ vols, ∃ e,
      readAs ((volumesOf spec).getD []) v.name = [e] ∧ IsBind v (walk vars.map e.2) := by
  have hrendered : volumesOf (renderValue spec vols vars)
      = (volumesOf spec).map fun m => m.map fun e => (e.1, walk vars.map e.2) := by
    rw [volumesOf, get_renderValue, volumesOf]
    cases hd : spec.get "volumes" with
    | none => rfl
    | some d =>
      have hkept : bindIn vols (walk vars.map d) = walk vars.map d := by
        cases d with
        | mapping m => exact absurd hd (hget m)
        | tagged t d => rw [walk_tagged, bindIn]; nofun
        | string s => rw [walk, bindIn]; nofun
        | sequence vs => rw [walk, bindIn]; nofun
        | null => rfl
        | bool b => rfl
        | number n => rfl
      rw [Option.map_some, Option.bind_some, Option.bind_some, hkept]
      exact asMapping_walk vars.map d
  constructor
  · intro hagree v hv
    obtain ⟨m', e', hm', hone, hbind⟩ := hagree.bound v hv
    rw [hrendered] at hm'
    obtain ⟨m, hm, rfl⟩ := Option.map_eq_some_iff.mp hm'
    rw [readAs_map (fun _ => walk vars.map)] at hone
    obtain ⟨e, he, rfl⟩ := List.map_eq_singleton_iff.mp hone
    rw [hm]
    exact ⟨e, he, hbind⟩
  · intro hreached
    refine ⟨List.nodup_iff_count_le_one.mpr fun n => ?_, fun v hv => ?_, fun m' hm' e' he' hx => ?_⟩
    · by_cases hn : n ∈ vols.map Volume.name
      · obtain ⟨v, hv, rfl⟩ := List.mem_map.mp hn
        obtain ⟨e, he, -⟩ := hreached v hv
        refine (count_names_le hread _).trans ?_
        rw [List.countP_eq_length_filter]
        exact le_of_eq (congrArg List.length he)
      · rw [List.count_eq_zero.mpr hn]
        exact Nat.zero_le 1
    · obtain ⟨e, he, hbind⟩ := hreached v hv
      cases hm : volumesOf spec with
      | none =>
        rw [hm] at he
        cases he
      | some m =>
        rw [hm] at he hrendered
        refine ⟨_, (e.1, walk vars.map e.2), hrendered, ?_, hbind⟩
        rw [readAs_map (fun _ => walk vars.map)]
        exact congrArg (List.map _) he
    · rw [hrendered] at hm'
      obtain ⟨m, hm, rfl⟩ := Option.map_eq_some_iff.mp hm'
      obtain ⟨e, he, rfl⟩ := List.mem_map.mp he'
      rw [hm] at hread hreached ⊢
      refine ⟨e.2, he, ?_⟩
      rcases hread.covered e he with hexternal | ⟨v, hv, hkey⟩
      · exact hexternal
      · obtain ⟨e₀, he₀, hbind⟩ := hreached v hv
        have hmem : e ∈ readAs m v.name := mem_readAs.mpr ⟨he, hkey⟩
        rw [show readAs m v.name = [e₀] from he₀] at hmem
        obtain rfl := List.mem_singleton.mp hmem
        exact absurd (not_xpve_of_isBind hbind) hx

end Agree

/-- **The volumes managed are the volumes bound, exactly when no tag hides one (proved).** -/
theorem volumes_agree_iff {spec : Value} {limits : Limits} {vols : List Volume}
    (hkeys : WellKeyed spec) (hvols : volumes spec limits = .ok vols) (vars : Vars) :
    VolumesAgree spec vols vars ↔ Reached spec vols vars := by
  have hread := volumes_readFrom hvols
  unfold Reached
  split
  · rename_i m hget
    have hof : volumesOf spec = some m := by rw [volumesOf, hget]; rfl
    rw [hof] at hread
    exact agree_iff_of_mapping hget (hkeys.volumesOf hof) hread
  · rename_i hget
    exact agree_iff_of_not_mapping (fun m hm => hget m hm) hread

/-- One volume of ours, and an external one. -/
def sharedTop : Mapping := [(.string "services", .mapping []), (.string "volumes", .mapping
  [(.string "cache", .null), (.string "shared", .mapping [(.string "external", .bool true)])])]

def sharedVolume : Volume := { name := "cache", kind := .plain, owner := none, backup := true }

def sharedVars : Vars := { vmid := 105, uid := "1000", gid := "1000", name := "web", project := "web" }

theorem sharedTop_wellKeyed : WellKeyed (.mapping sharedTop) := by
  have hexternal : WellKeyed (.mapping [(.string "external", .bool true)]) :=
    .mapping (by simp) (by simpa using WellKeyed.string _) (by simpa using WellKeyed.bool _)
  have hvolumes : WellKeyed (.mapping [(.string "cache", .null),
      (.string "shared", .mapping [(.string "external", .bool true)])]) := by
    refine .mapping (by simp) ?_ ?_
    · simpa using ⟨WellKeyed.string _, WellKeyed.string _⟩
    · simpa using ⟨WellKeyed.null, hexternal⟩
  refine .mapping (by simp [sharedTop]) ?_ ?_
  · simpa [sharedTop] using ⟨WellKeyed.string _, WellKeyed.string _⟩
  · have hservices : WellKeyed (.mapping []) := .mapping List.nodup_nil (by simp) (by simp)
    simpa [sharedTop] using ⟨hservices, hvolumes⟩

theorem sharedTop_volumes :
    volumes (.mapping sharedTop) Config.default.limits = .ok [sharedVolume] :=
  eq_ok_of_toOption (by decide)

theorem render_frame_shared : ∃ top', renderValue (.mapping sharedTop) [sharedVolume] sharedVars
      = .mapping top' ∧
    Rendered "web" (fun s => substitute s sharedVars.map) [sharedVolume] sharedTop top' :=
  render_frame sharedTop_wellKeyed rfl sharedTop_volumes sharedVars

theorem volumes_agree_shared : VolumesAgree (.mapping sharedTop) [sharedVolume] sharedVars := by
  refine (volumes_agree_iff sharedTop_wellKeyed sharedTop_volumes sharedVars).mpr ?_
  show PlainKeys _ _
  exact plainKeys_of_tagFree rfl

/-- A tag on `volumes` itself. -/
def hiddenDoc : Doc where
  stack := { owner := none }
  policy := .default
  spec := .mapping [(.string "volumes", .tagged "!keep" (.mapping
    [(.string "cache", .mapping [(.string "x-pve", .mapping [])])]))]

theorem hiddenDoc_wellKeyed : WellKeyed hiddenDoc.spec := by
  have hempty : WellKeyed (.mapping []) := .mapping List.nodup_nil (by simp) (by simp)
  have hxpve : WellKeyed (.mapping [(.string "x-pve", .mapping [])]) :=
    .mapping (by simp) (by simpa using WellKeyed.string _) (by simpa using hempty)
  have hvolumes : WellKeyed (.mapping [(.string "cache", .mapping
      [(.string "x-pve", .mapping [])])]) :=
    .mapping (by simp) (by simpa using WellKeyed.string _) (by simpa using hxpve)
  exact .mapping (by simp) (by simpa using WellKeyed.string _)
    (by simpa using WellKeyed.tagged hvolumes)

/-- **A tagged `volumes`** is managed, and rendered as the author wrote it. -/
theorem volumes_disagree : ∃ doc vols, (∀ text, parse (fun _ => .ok doc) text = .ok doc) ∧
    WellKeyed doc.spec ∧ volumes doc.spec Config.default.limits = .ok vols ∧
      ¬ VolumesAgree doc.spec vols sharedVars := by
  have hvols : volumes hiddenDoc.spec Config.default.limits = .ok [sharedVolume] :=
    eq_ok_of_toOption (by decide)
  refine ⟨hiddenDoc, [sharedVolume], fun _ => rfl, hiddenDoc_wellKeyed, hvols, fun hagree => ?_⟩
  obtain ⟨e, he, hbind⟩ := (agree_iff_of_not_mapping (fun m h => by cases h)
    (volumes_readFrom hvols)).mp hagree sharedVolume (List.mem_singleton_self _)
  obtain rfl : (.string "cache", .mapping [(.string "x-pve", .mapping [])]) = e :=
    (List.cons.inj he).1
  cases not_xpve_of_isBind hbind

end PveCompose
