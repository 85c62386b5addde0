import PveCompose.Stored
import PveCompose.Lib.Interleave

/-!
# Two writers of the stored choices (`config.rs`, `ops/configcmd.rs`)

A change of the stored choices reads the file, writes the new text to a temporary file and renames it
over the file.  Two nodes may do that at once: they share both files and nothing tells them of each
other.

* `fileWorld` — the two files; a rename is atomic, a read sees what was renamed last;
* `cut_at_renames` — **the cut**: when both end well, one has written and renamed before the other
  writes, and the other read before that rename or after it;
* `no_clobber_iff` — **PROVED**: both changes are in the file at the end exactly when the second read
  came after the first rename (`Spared`), sizes that do not read back apart.
-/

namespace PveCompose

open Programs

/-! ### The commands -/

/-- What a change does to the two files. -/
inductive FileStep where
  | read : FileStep
  | write : Text → FileStep
  | rename : FileStep

abbrev FileStep.Answer : FileStep → Type
  | .read => FileRead
  | _ => Result Unit

abbrev fileSig : Sig := ⟨FileStep, FileStep.Answer⟩

/-- `update`, and `set` and `unset`: load, change, `save_to`. -/
def updateSteps (x : External) (w : ConfigChange) : Fallible fileSig Error Config := do
  let c ← Fallible.issue (S := fileSig) .read (Config.load x.configFromYaml)
  let c ← Fallible.ofExcept (w.change c)
  let body ← Fallible.ofExcept (saveText x c)
  Fallible.issue (S := fileSig) (.write body) (withContext ("cannot write " ++ Config.PATH ++ ".tmp"))
  Fallible.issue (S := fileSig) .rename (withContext ("cannot replace " ++ Config.PATH))
  pure c

/-- The file and the temporary file. -/
structure ConfigFiles where
  file : Option Text
  tmp : Option Text

/-- What a read gives, when it does not fail. -/
def ConfigFiles.found (d : ConfigFiles) : FileRead := d.file.elim .notFound .text

/-- What a step of a writer does, if it is done. -/
inductive FileReply : ConfigFiles → (c : FileStep) → c.Answer → ConfigFiles → Prop where
  | read (d : ConfigFiles) : FileReply d .read d.found d
  | readFailed (d : ConfigFiles) (e : Error) : FileReply d .read (.failed e) d
  | write (d : ConfigFiles) (body : Text) :
      FileReply d (.write body) (.ok ()) { d with tmp := some body }
  /-- A write that failed may have left anything. -/
  | writeFailed (d : ConfigFiles) (body : Text) (e : Error) (left : Option Text) :
      FileReply d (.write body) (.error e) { d with tmp := left }
  | rename (d : ConfigFiles) (body : Text) : d.tmp = some body →
      FileReply d .rename (.ok ()) ⟨some body, none⟩
  | renameFailed (d : ConfigFiles) (e : Error) : FileReply d .rename (.error e) d

def fileWorld : World fileSig ConfigFiles := ⟨FileReply⟩

/-! ### One writer -/

/-- The steps of a change that ends well. -/
def changeSteps (found : FileRead) (body : Text) : List (Event fileSig) :=
  [⟨.read, found⟩, ⟨.write body, .ok ()⟩, ⟨.rename, .ok ()⟩]

/-- **A change that ends well** has loaded what it read, and written that with its change. -/
theorem yields_updateSteps {x : External} {w : ConfigChange} {tr : List (Event fileSig)} {c : Config} :
    Yields (updateSteps x w).run tr (.ok c) ↔
      ∃ found body c₀, tr = changeSteps found body ∧ Config.load x.configFromYaml found = .ok c₀ ∧
        w.change c₀ = .ok c ∧ saveText x c = .ok body := by
  constructor
  · intro h
    obtain ⟨_, c₀, _, rfl, hread, h₁⟩ := yields_bind_ok.mp h
    obtain ⟨found, rfl, hload⟩ := yields_issue.mp hread
    obtain ⟨_, c₁, _, rfl, hchange, h₂⟩ := yields_bind_ok.mp h₁
    obtain ⟨rfl, hchanged⟩ := yields_ofExcept.mp hchange
    obtain ⟨_, body, _, rfl, hsave, h₃⟩ := yields_bind_ok.mp h₂
    obtain ⟨rfl, hsaved⟩ := yields_ofExcept.mp hsave
    obtain ⟨_, _, _, rfl, hwrite, h₄⟩ := yields_bind_ok.mp h₃
    obtain ⟨wrote, rfl, hwrote⟩ := yields_issue.mp hwrite
    obtain rfl : wrote = .ok () := withContext_eq_ok.mp hwrote.symm
    obtain ⟨_, _, _, rfl, hrename, h₅⟩ := yields_bind_ok.mp h₄
    obtain ⟨renamed, rfl, hrenamed⟩ := yields_issue.mp hrename
    obtain rfl : renamed = .ok () := withContext_eq_ok.mp hrenamed.symm
    obtain ⟨rfl, hc⟩ := yields_ret.mp h₅
    cases hc
    exact ⟨found, body, c₀, rfl, hload.symm, hchanged.symm, hsaved.symm⟩
  · rintro ⟨found, body, c₀, rfl, hload, hchange, hsave⟩
    refine yields_bind_ok.mpr ⟨[_], c₀, _, rfl, yields_issue.mpr ⟨found, rfl, hload.symm⟩, ?_⟩
    refine yields_bind_ok.mpr ⟨[], c, _, rfl, yields_ofExcept.mpr ⟨rfl, hchange.symm⟩, ?_⟩
    refine yields_bind_ok.mpr ⟨[], body, _, rfl, yields_ofExcept.mpr ⟨rfl, hsave.symm⟩, ?_⟩
    refine yields_bind_ok.mpr ⟨[_], (), _, rfl, yields_issue.mpr ⟨.ok (), rfl, rfl⟩, ?_⟩
    refine yields_bind_ok.mpr ⟨[_], (), _, rfl, yields_issue.mpr ⟨.ok (), rfl, rfl⟩, ?_⟩
    exact yields_ret.mpr ⟨rfl, rfl⟩

/-! ### The two files along a trace -/

section Trace

variable {s s' d d' : ConfigFiles} {tr : List (Turn fileSig Bool)} {i : Bool}

abbrev IsRead (e : Event fileSig) : Prop := ∃ found, e = ⟨.read, found⟩

/-- Reads change nothing. -/
theorem same_of_reads (h : Played fileWorld s tr s') (hreads : ∀ j, ∀ e ∈ own j tr, IsRead e) :
    s' = s := by
  refine h.keeps (P := fun s₁ => s₁ = s) rfl fun t ht s₁ s₂ hs hreply => ?_
  obtain ⟨found, hfound⟩ := hreads t.1 t.2 (mem_own.mpr ht)
  rw [hfound] at hreply
  cases hreply with
  | read => exact hs
  | readFailed => exact hs

/-- The file is what was renamed last. -/
theorem file_of_noRename (h : Played fileWorld s tr s')
    (hno : ∀ j, (⟨.rename, .ok ()⟩ : Event fileSig) ∉ own j tr) : s'.file = s.file := by
  refine h.keeps (P := fun s₁ => s₁.file = s.file) rfl fun t ht s₁ s₂ hs hreply => ?_
  obtain ⟨j, c, r⟩ := t
  cases hreply with
  | rename => exact absurd (mem_own.mpr ht) (hno j)
  | _ => exact hs

/-- Before any rename a read gives the file of the start. -/
theorem found_of_noRename (h : Played fileWorld s tr s')
    (hno : ∀ j, (⟨.rename, .ok ()⟩ : Event fileSig) ∉ own j tr) {found : FileRead}
    (hread : (⟨.read, found⟩ : Event fileSig) ∈ own i tr) :
    found = s.found ∨ ∃ e, found = .failed e := by
  obtain ⟨before, after, rfl⟩ := List.append_of_mem (mem_own.mp hread)
  obtain ⟨s₁, hbefore, hrest⟩ := played_append.mp h
  have hfile := file_of_noRename hbefore fun j hj => hno j (by
    rw [own_append]
    exact List.mem_append_left _ hj)
  obtain ⟨s₂, hreply, -⟩ := played_cons.mp hrest
  cases hreply with
  | read =>
    left
    rw [ConfigFiles.found, hfile]
    rfl
  | readFailed e => exact .inr ⟨_, rfl⟩

/-- What a writer wrote last is what is renamed, if the other only reads. -/
theorem tmp_of_write {body : Text} {q : List (Event fileSig)} (h : Played fileWorld s tr s')
    (hown : own i tr = q ++ [⟨.write body, .ok ()⟩])
    (hreads : ∀ j, j ≠ i → ∀ e ∈ own j tr, IsRead e) : s'.tmp = some body := by
  obtain ⟨before, after, rfl, -, hafter⟩ := own_split hown
  obtain ⟨s₁, -, hrest⟩ := played_append.mp h
  obtain ⟨s₂, hreply, hplayed⟩ := played_cons.mp hrest
  have hsame : s' = s₂ := same_of_reads hplayed fun j e he => by
    by_cases hj : j = i
    · rw [hj, hafter] at he
      cases he
    · refine hreads j hj e ?_
      rw [own_append, own_other (Ne.symm hj)]
      exact List.mem_append_right _ he
  rw [hsame]
  cases hreply
  rfl

theorem rename_reply (h : FileReply s .rename (.ok ()) s') :
    ∃ body, s.tmp = some body ∧ s' = ⟨some body, none⟩ := by
  cases h with
  | rename body hbody => exact ⟨body, hbody, rfl⟩

theorem eq_not_of_ne {i j : Bool} (h : j ≠ i) : j = !i := by
  cases i <;> cases j <;> first | rfl | exact absurd rfl h

/-- A trace of two writers, up to the rename of the first and up to that of the second. -/
structure CutAt (found : Bool → FileRead) (body : Bool → Text) (i : Bool)
    (u v : List (Turn fileSig Bool)) : Prop where
  other : own (!i) u = [⟨.read, found !i⟩, ⟨.write (body !i), .ok ()⟩]
  alone : own (!i) v = []
  /-- The second read before that rename, or after it. -/
  second : own i u = [⟨.read, found i⟩] ∧ own i v = [⟨.write (body i), .ok ()⟩] ∨
    own i u = [] ∧ own i v = [⟨.read, found i⟩, ⟨.write (body i), .ok ()⟩]

/-- **The cut (proved)**: the temporary file that the second renames it has written since the first
renamed its own. -/
theorem cut_at_renames {found : Bool → FileRead} {body : Bool → Text}
    (h : Played fileWorld d tr d') (hown : ∀ j, own j tr = changeSteps (found j) (body j)) :
    ∃ i u v, tr = u ++ (!i, ⟨.rename, .ok ()⟩) :: v ++ [(i, ⟨.rename, .ok ()⟩)] ∧
      CutAt found body i u v := by
  obtain rfl | ⟨tr₁, ⟨i, e⟩, rfl⟩ := tr.eq_nil_or_concat
  · cases hown true
  -- the last event of all is the last of its writer
  have hi := hown i
  rw [List.concat_eq_append, own_append, own_self] at hi
  have hi' : own i tr₁ ++ [e] = [⟨.read, found i⟩, ⟨.write (body i), .ok ()⟩] ++ [⟨.rename, .ok ()⟩] := hi
  obtain ⟨htr₁, he⟩ := List.append_inj' hi' rfl
  obtain rfl := List.singleton_inj.mp he
  have hne : i ≠ !i := by cases i <;> decide
  have hother := hown !i
  rw [List.concat_eq_append, own_append, own_other hne] at hother
  obtain ⟨u, v, rfl, hu, hv⟩ := own_split (i := !i) (u := [_, _]) (v := [])
    ((List.append_nil _).symm.trans hother)
  refine ⟨i, u, v, List.concat_eq_append .., hu, hv, ?_⟩
  rw [own_append, own_other hne.symm] at htr₁
  -- what the second did before the rename of the first
  rcases hui : own i u with _ | ⟨e₁, _ | ⟨e₂, rest⟩⟩
  · rw [hui] at htr₁
    exact .inr ⟨rfl, htr₁⟩
  · rw [hui] at htr₁
    obtain ⟨rfl, hvi⟩ := List.cons.inj htr₁
    exact .inl ⟨rfl, hvi⟩
  · -- it wrote before: there is no temporary file to rename
    rw [hui] at htr₁
    have hvi : own i v = [] := by
      obtain ⟨-, hrest⟩ := List.cons.inj htr₁
      obtain ⟨-, hrest⟩ := List.cons.inj hrest
      exact (List.append_eq_nil_iff.mp hrest).2
    have hv : v = [] := eq_nil_of_own fun j => by
      by_cases hj : j = i
      · rw [hj, hvi]
      · rw [eq_not_of_ne hj, hv]
    rw [hv, List.concat_eq_append, played_append] at h
    obtain ⟨s₂, hfirst, hlast⟩ := h
    obtain ⟨s₁, -, hfirst⟩ := played_append.mp hfirst
    obtain ⟨s₂', hrename, hnil⟩ := played_cons.mp hfirst
    obtain ⟨_, -, rfl⟩ := rename_reply hrename
    cases hnil
    obtain ⟨_, hrename', -⟩ := played_cons.mp hlast
    obtain ⟨_, hnone, -⟩ := rename_reply hrename'
    cases hnone

section Cut

variable {found : Bool → FileRead} {body : Bool → Text} {u v : List (Turn fileSig Bool)}

theorem CutAt.noRename_left (h : CutAt found body i u v) (j : Bool) :
    (⟨.rename, .ok ()⟩ : Event fileSig) ∉ own j u := by
  by_cases hj : j = i
  · rw [hj]
    rcases h.second with ⟨hu, -⟩ | ⟨hu, -⟩ <;> rw [hu] <;> simp
  · rw [eq_not_of_ne hj, h.other]
    simp

theorem CutAt.noRename_right (h : CutAt found body i u v) (j : Bool) :
    (⟨.rename, .ok ()⟩ : Event fileSig) ∉ own j v := by
  by_cases hj : j = i
  · rw [hj]
    rcases h.second with ⟨-, hv⟩ | ⟨-, hv⟩ <;> rw [hv] <;> simp
  · rw [eq_not_of_ne hj, h.alone]
    exact List.not_mem_nil

/-- The first renames what it has written. -/
theorem CutAt.tmp_left (h : CutAt found body i u v) (hu : Played fileWorld s u s') :
    s'.tmp = some (body !i) := by
  refine tmp_of_write (q := [_]) hu h.other fun j hj e he => ?_
  have hj : j = i := (eq_not_of_ne hj).trans (Bool.not_not i)
  rw [hj] at he
  rcases h.second with ⟨hui, -⟩ | ⟨hui, -⟩
  · rw [hui] at he
    exact ⟨_, List.mem_singleton.mp he⟩
  · rw [hui] at he
    cases he

/-- So does the second. -/
theorem CutAt.tmp_right (h : CutAt found body i u v) (hv : Played fileWorld s v s') :
    s'.tmp = some (body i) := by
  have hlast : ∃ q, own i v = q ++ [⟨.write (body i), .ok ()⟩] := by
    rcases h.second with ⟨-, hvi⟩ | ⟨-, hvi⟩
    · exact ⟨[], hvi⟩
    · exact ⟨[_], hvi⟩
  obtain ⟨q, hq⟩ := hlast
  refine tmp_of_write hv hq fun j hj e he => ?_
  rw [eq_not_of_ne hj, h.alone] at he
  cases he

/-- **What the second renames (proved)**: its own text, made of the first's or of the start's. -/
theorem CutAt.files (hcut : CutAt found body i u v) (hread : ∀ j e, found j ≠ .failed e)
    (h : Played fileWorld d (u ++ (!i, ⟨.rename, .ok ()⟩) :: v ++ [(i, ⟨.rename, .ok ()⟩)]) d') :
    d'.file = some (body i) ∧ found (!i) = d.found ∧
      (own i u ≠ [] ∧ found i = d.found ∨ own i u = [] ∧ found i = .text (body !i)) := by
  obtain ⟨s₃, hfirst, hlast⟩ := played_append.mp h
  obtain ⟨s₁, hu, hfirst⟩ := played_append.mp hfirst
  obtain ⟨s₂, hrename, hv⟩ := played_cons.mp hfirst
  obtain ⟨b₁, hb₁, rfl⟩ := rename_reply hrename
  obtain ⟨s₄, hrename', hnil⟩ := played_cons.mp hlast
  cases hnil
  obtain ⟨b₂, hb₂, rfl⟩ := rename_reply hrename'
  obtain rfl : b₁ = body !i := Option.some.inj (hb₁.symm.trans (hcut.tmp_left hu))
  have hb₂' : b₂ = body i := Option.some.inj (hb₂.symm.trans (hcut.tmp_right hv))
  have hstart : ∀ j, (⟨.read, found j⟩ : Event fileSig) ∈ own j u → found j = d.found := by
    intro j hj
    rcases found_of_noRename hu hcut.noRename_left hj with heq | ⟨e, he⟩
    · exact heq
    · exact absurd he (hread j e)
  have hother : (⟨.read, found !i⟩ : Event fileSig) ∈ own (!i) u := by
    rw [hcut.other]
    exact List.mem_cons_self
  refine ⟨congrArg some hb₂', hstart _ hother, ?_⟩
  rcases hcut.second with ⟨hui, -⟩ | ⟨hui, hvi⟩
  · refine .inl ⟨?_, hstart i ?_⟩
    · rw [hui]
      exact List.cons_ne_nil _ _
    · rw [hui]
      exact List.mem_cons_self
  · refine .inr ⟨hui, ?_⟩
    have hmem : (⟨.read, found i⟩ : Event fileSig) ∈ own i v := by
      rw [hvi]
      exact List.mem_cons_self
    rcases found_of_noRename hv hcut.noRename_right hmem with heq | ⟨e, he⟩
    · exact heq
    · exact absurd he (hread i e)

end Cut

end Trace

/-! ### What a config holds -/

namespace ConfigChange

variable {w : ConfigChange} {c c' : Config} {ps : List ((k : ConfigKey) × k.Value)}

/-- The config has under every key what the change puts there. -/
def Holds (w : ConfigChange) (c : Config) : Prop :=
  ∃ ps, w.puts = .ok ps ∧ ∀ p ∈ ps, c.value p.1 = p.2

theorem holds_congr (h : ∀ k ∈ w.keys, c.value k = c'.value k) : w.Holds c ↔ w.Holds c' := by
  have hvalue : ∀ ps, w.puts = .ok ps → ∀ p ∈ ps, c.value p.1 = c'.value p.1 := by
    intro ps hps p hp
    refine h p.1 ?_
    rw [keys_of_puts hps]
    exact List.mem_map_of_mem hp
  constructor
  · rintro ⟨ps, hps, hall⟩
    exact ⟨ps, hps, fun p hp => (hvalue ps hps p hp).symm.trans (hall p hp)⟩
  · rintro ⟨ps, hps, hall⟩
    exact ⟨ps, hps, fun p hp => (hvalue ps hps p hp).trans (hall p hp)⟩

/-- No key is put twice. -/
theorem nodup_puts (h : w.puts = .ok ps) : (ps.map Sigma.fst).Nodup := by
  cases w with
  | set node key value =>
    obtain ⟨p, rfl, -, -⟩ := put_of_setPuts h
    exact List.nodup_singleton _
  | unset node key =>
    obtain ⟨p, rfl, -, -⟩ := put_of_unsetPuts h
    exact List.nodup_singleton _
  | answers node templateStorage storage =>
    cases h
    cases templateStorage <;> cases storage <;> simp

/-- **A change is held by what it gives (proved).** -/
theorem holds_change (h : w.change c = .ok c') : w.Holds c' := by
  obtain ⟨ps, hps, rfl⟩ := exists_puts h
  have hnd := nodup_puts hps
  refine ⟨ps, hps, ?_⟩
  clear h hps
  induction ps generalizing c with
  | nil => exact fun p hp => absurd hp List.not_mem_nil
  | cons q ps ih =>
    obtain ⟨hq, hnd⟩ := List.nodup_cons.mp hnd
    intro p hp
    rw [List.foldl_cons]
    rcases List.mem_cons.mp hp with rfl | hp
    · rw [value_puts_of_not_mem hq, Config.value_put]
    · exact ih hnd p hp

/-! #### Printed and read again -/

theorem value_reread_of_ne {k : ConfigKey} (h : k ≠ .rootfsSize) (c : Config) :
    c.reread.value k = c.value k := by
  cases k with
  | rootfsSize => exact absurd rfl h
  | _ => rfl

theorem holds_reread_congr (h : ∀ k ∈ w.keys, c.value k = c'.value k) :
    w.Holds c.reread ↔ w.Holds c'.reread := by
  refine holds_congr fun k hk => ?_
  by_cases hsize : k = .rootfsSize
  · subst hsize
    exact congrArg Size.reread (h _ hk)
  · rw [value_reread_of_ne hsize, value_reread_of_ne hsize, h k hk]

/-- Every size that is put reads back. -/
theorem whole_iff (h : w.puts = .ok ps) :
    w.Whole ↔ ∀ s : Size, (⟨.rootfsSize, s⟩ : (k : ConfigKey) × k.Value) ∈ ps → s.reread = s := by
  cases w with
  | set node key value =>
    obtain ⟨p, rfl, -, hsize⟩ := put_of_setPuts h
    constructor
    · intro hwhole s hs
      obtain ⟨hkey, hs⟩ := hsize s (List.mem_singleton.mp hs).symm
      exact (Size.reread_eq_iff (Size.fromStr_pos hs)).mpr (hwhole hkey s hs)
    · rintro hall rfl s hs
      have hputs : setPuts node "rootfs-size" value = .ok [⟨.rootfsSize, s⟩] := by
        show (Size.fromStr value >>= fun s => _) = _
        rw [hs]
        rfl
      obtain rfl := List.singleton_inj.mp (Except.ok.inj (h.symm.trans hputs))
      exact (Size.reread_eq_iff (Size.fromStr_pos hs)).mp (hall s (List.mem_singleton_self _))
  | unset node key =>
    obtain ⟨p, rfl, -, hsize⟩ := put_of_unsetPuts h
    refine iff_of_true trivial fun s hs => ?_
    rw [hsize s (List.mem_singleton.mp hs).symm]
    decide
  | answers node templateStorage storage =>
    cases h
    refine iff_of_true trivial fun s hs => ?_
    have hkey := List.mem_map_of_mem (f := Sigma.fst) hs
    cases templateStorage <;> cases storage <;> simp at hkey

/-- **What was changed is held by the file (proved)** exactly when its size reads back. -/
theorem holds_reread_iff (h : w.change c = .ok c') : w.Holds c'.reread ↔ w.Whole := by
  obtain ⟨ps, hps, hall⟩ := holds_change h
  rw [whole_iff hps]
  constructor
  · rintro ⟨ps', hps', hall'⟩ s hs
    rw [hps] at hps'
    cases hps'
    have hvalue : c'.defaults.rootfsSize = s := hall _ hs
    have hreread : c'.defaults.rootfsSize.reread = s := hall' _ hs
    rw [← hvalue] at hreread ⊢
    exact hreread
  · intro hsize
    refine ⟨ps, hps, fun p hp => ?_⟩
    obtain ⟨k, v⟩ := p
    by_cases hk : k = .rootfsSize
    · subst hk
      have hvalue : c'.defaults.rootfsSize = v := hall _ hp
      show c'.defaults.rootfsSize.reread = v
      rw [hvalue]
      exact hsize v hp
    · rw [← hall _ hp]
      exact value_reread_of_ne hk c'

/-- What holds a change has what the change gives. -/
theorem Holds.value_eq {c₀ : Config} (h : w.Holds c) (hchange : w.change c₀ = .ok c') {k : ConfigKey}
    (hk : k ∈ w.keys) : c.value k = c'.value k := by
  obtain ⟨ps, hps, hall⟩ := h
  obtain ⟨ps', hps', hall'⟩ := holds_change hchange
  rw [hps] at hps'
  cases hps'
  rw [keys_of_puts hps] at hk
  obtain ⟨p, hp, rfl⟩ := List.mem_map.mp hk
  rw [hall p hp, hall' p hp]

end ConfigChange

/-- Printed and read a second time, a size is the same. -/
theorem Size.reread_reread (s : Size) : s.reread.reread = s.reread := by
  by_cases hk : s.bytes % KIB = 0
  · have hs : s.reread = s := if_pos hk
    rw [hs, hs]
  · have hs : s.reread = saturate (s.bytes * GIB) := if_neg hk
    have hbytes : s.reread.bytes = min (s.bytes * GIB) (2 ^ 64 - 1) := by rw [hs]; rfl
    have hkib : KIB = 2 ^ 10 := by decide
    have hgib : GIB = 2 ^ 30 := by decide
    rw [hgib] at hbytes
    rw [hkib] at hk
    rw [reread_eq_iff (by omega), hkib]
    omega

theorem Config.reread_reread (c : Config) : c.reread.reread = c.reread :=
  reread_eq_self_iff.mpr (Size.reread_reread _)

/-! ### Both changes at the end -/

/-- There is a moment at which the other has renamed, and this writer has not read yet. -/
def AfterRename (tr : List (Turn fileSig Bool)) (i : Bool) : Prop :=
  ∃ u v, tr = u ++ v ∧ (!i, ⟨.rename, .ok ()⟩) ∈ u ∧ ∃ found, (i, ⟨.read, found⟩) ∈ v

/-- The second to rename reads after the first has renamed, and the sizes that are set read back; or
what it reads before that holds the first's change already. -/
def Spared (x : External) (w : Bool → ConfigChange) (d : ConfigFiles) (tr : List (Turn fileSig Bool)) :
    Prop :=
  ∃ i, tr.getLast? = some (i, ⟨.rename, .ok ()⟩) ∧ (w i).Whole ∧
    (AfterRename tr i ∧ (w !i).Whole ∨ ¬ AfterRename tr i ∧
      ∃ c₀, Config.load x.configFromYaml d.found = .ok c₀ ∧ (w !i).Holds c₀.reread)

/-- The cut says when the second read. -/
theorem CutAt.afterRename_iff {found : Bool → FileRead} {body : Bool → Text} {i : Bool}
    {u v : List (Turn fileSig Bool)} (h : CutAt found body i u v) :
    AfterRename (u ++ (!i, ⟨.rename, .ok ()⟩) :: v ++ [(i, ⟨.rename, .ok ()⟩)]) i ↔ own i u = [] := by
  constructor
  · rintro ⟨u', v', htr, hrename, r, hread⟩
    rcases h.second with ⟨hui, hvi⟩ | ⟨hui, -⟩
    · exfalso
      rw [List.append_assoc] at htr
      rcases List.append_eq_append_iff.mp htr with ⟨a, -, hrest⟩ | ⟨a, hu, -⟩
      · -- the read would be after the first's rename
        have hmem : (⟨.read, r⟩ : Event fileSig) ∈
            own i ((!i, ⟨.rename, .ok ()⟩) :: v ++ [(i, ⟨.rename, .ok ()⟩)]) := by
          rw [hrest]
          exact mem_own.mpr (List.mem_append_right _ hread)
        rw [List.cons_append, own_other (by cases i <;> decide), own_append, hvi, own_self] at hmem
        simp [own] at hmem
      · -- the rename would be before the first's rename
        refine h.noRename_left (!i) (mem_own.mpr ?_)
        rw [hu]
        exact List.mem_append_left _ hrename
    · exact hui
  · intro hui
    obtain ⟨-, hvi⟩ := h.second.resolve_left fun hread => by
      rw [hui] at hread
      cases hread.1
    have hmem : (i, ⟨.read, found i⟩) ∈ v := mem_own.mp (by
      rw [hvi]
      exact List.mem_cons_self)
    refine ⟨u ++ [(!i, ⟨.rename, .ok ()⟩)], v ++ [(i, ⟨.rename, .ok ()⟩)], by simp, by simp, found i, ?_⟩
    exact List.mem_append_left _ hmem

/-- **Two writers (proved)**: both changes are in the file at the end exactly when the second was
`Spared`. -/
theorem no_clobber_iff {x : External} (hx : ReadsBack x) {w : Bool → ConfigChange}
    (hkeys : ∀ k ∈ (w true).keys, k ∉ (w false).keys) {d d' : ConfigFiles}
    {tr : List (Turn fileSig Bool)} {ps : Bool → Prog fileSig (Except Error Config)}
    {c : Bool → Config} (hrun : Interleaved fileWorld d (fun i => (updateSteps x (w i)).run) tr d' ps)
    (hends : ∀ i, ps i = .ret (.ok (c i))) :
    (∃ final, Config.load x.configFromYaml d'.found = .ok final ∧ ∀ i, (w i).Holds final) ↔
      Spared x w d tr := by
  have hsteps := fun i => yields_updateSteps.mp (yields_own hrun (hends i))
  choose found body c₀ hown hload hchange hsave using hsteps
  have hread : ∀ j e, found j ≠ .failed e := by
    intro j e hj
    have hj' := hload j
    rw [hj] at hj'
    cases hj'
  obtain ⟨i, u, v, rfl, hcut⟩ := cut_at_renames (played_of_interleaved hrun) hown
  obtain ⟨hfile, hfirst, hsecond⟩ := hcut.files hread (played_of_interleaved hrun)
  have hother : ∀ k ∈ (w !i).keys, k ∉ (w i).keys := by
    cases i with
    | true => exact fun k hk hk' => hkeys k hk' hk
    | false => exact hkeys
  have htyped : ∀ j, (c j).Typed :=
    fun j => ConfigChange.typed_change (typed_load hx (hload j)) (hchange j)
  have hfinal : Config.load x.configFromYaml d'.found = .ok (c i).reread := by
    rw [ConfigFiles.found, hfile]
    exact load_saveText hx (htyped i) (hsave i)
  have hboth : (∃ final, Config.load x.configFromYaml d'.found = .ok final ∧ ∀ i, (w i).Holds final) ↔
      (w i).Whole ∧ (w !i).Holds (c₀ i).reread := by
    rw [← ConfigChange.holds_reread_iff (hchange i), ← ConfigChange.holds_reread_congr fun k hk =>
      ConfigChange.value_change_of_not_mem (hchange i) (hother k hk)]
    constructor
    · rintro ⟨final, h, hall⟩
      obtain rfl := Except.ok.inj (hfinal.symm.trans h)
      exact ⟨hall i, hall !i⟩
    · rintro ⟨hi, hnot⟩
      refine ⟨_, hfinal, fun j => ?_⟩
      by_cases hj : j = i
      · exact hj ▸ hi
      · exact eq_not_of_ne hj ▸ hnot
  have hspared : Spared x w d (u ++ (!i, ⟨.rename, .ok ()⟩) :: v ++ [(i, ⟨.rename, .ok ()⟩)]) ↔
      (w i).Whole ∧ (own i u = [] ∧ (w !i).Whole ∨ ¬ own i u = [] ∧
        ∃ c₀, Config.load x.configFromYaml d.found = .ok c₀ ∧ (w !i).Holds c₀.reread) := by
    rw [← hcut.afterRename_iff]
    constructor
    · rintro ⟨j, hj, h⟩
      rw [List.getLast?_concat] at hj
      obtain rfl : i = j := congrArg Prod.fst (Option.some.inj hj)
      exact h
    · exact fun h => ⟨i, List.getLast?_concat .., h⟩
  rw [hboth, hspared]
  refine and_congr_right fun _ => ?_
  rcases hsecond with ⟨hbefore, hfound⟩ | ⟨hafter, hfound⟩
  · -- both read the file of the start
    rw [or_iff_right fun h => hbefore h.1, and_iff_right hbefore, ← hfound, hload i]
    exact ⟨fun h => ⟨_, rfl, h⟩, fun ⟨c₁, hc₁, h⟩ => by cases hc₁; exact h⟩
  · -- the second read what the first renamed
    have hnext := load_saveText hx (htyped !i) (hsave !i)
    rw [← hfound, hload i] at hnext
    rw [or_iff_left fun h => h.1 hafter, and_iff_right hafter, Except.ok.inj hnext, Config.reread_reread]
    exact ConfigChange.holds_reread_iff (hchange !i)

/-! #### A size and a bridge -/

/-- One node sets the size, the other unsets the bridge. -/
def sizeAndBridge : Bool → ConfigChange
  | true => .set "pve" "rootfs-size" "20G"
  | false => .unset "other" "bridge"

def sizedConfig : Config :=
  { Config.default with defaults.rootfsSize := ⟨20 * Size.GIB, by decide⟩ }

theorem sizedConfig_typed : sizedConfig.Typed where
  rootfsSize := by decide
  cores := by decide
  memory := by decide
  maxDiskGib := by decide
  interval := by decide
  fullEvery := by decide

theorem size_20G : Size.fromStr "20G" = .ok ⟨20 * Size.GIB, by decide⟩ := by
  have hbytes : (Size.fromStr "20G").toOption.map Size.bytes = some (20 * Size.GIB) := by decide
  obtain ⟨⟨_, _⟩, hs, rfl⟩ := Option.map_eq_some_iff.mp hbytes
  exact eq_ok_of_toOption hs

theorem change_size : (sizeAndBridge true).change Config.default = .ok sizedConfig := by
  show (Size.fromStr "20G" >>= fun s => .ok { Config.default with defaults.rootfsSize := s }) = _
  rw [size_20G]
  rfl

theorem sizedConfig_saved : ∃ body, saveText sizeExternal sizedConfig = .ok body := by
  have hsaved : (saveText sizeExternal sizedConfig).toOption.isSome := by decide +kernel
  obtain ⟨body, hbody⟩ := Option.isSome_iff_exists.mp hsaved
  exact ⟨body, eq_ok_of_toOption hbody⟩

theorem sizeAndBridge_keys : ∀ k ∈ (sizeAndBridge true).keys, k ∉ (sizeAndBridge false).keys := by
  decide

/-- Both read before either has renamed. -/
def raced (body : Text) : List (Turn fileSig Bool) :=
  [(true, ⟨.read, .notFound⟩), (false, ⟨.read, .notFound⟩), (true, ⟨.write body, .ok ()⟩),
    (true, ⟨.rename, .ok ()⟩), (false, ⟨.write (CONFIG_HEADER ++ []), .ok ()⟩),
    (false, ⟨.rename, .ok ()⟩)]

/-- **The size is lost**: the other node saves the defaults. -/
theorem clobbered :
    ReadsBack sizeExternal ∧ (∀ k ∈ (sizeAndBridge true).keys, k ∉ (sizeAndBridge false).keys) ∧
      ∃ tr d' ps, ∃ c : Bool → Config, Interleaved fileWorld ⟨none, none⟩
          (fun i => (updateSteps sizeExternal (sizeAndBridge i)).run) tr d' ps ∧
        (∀ i, ps i = .ret (.ok (c i))) ∧
        ¬ ∃ final, Config.load sizeExternal.configFromYaml d'.found = .ok final ∧
          ∀ i, (sizeAndBridge i).Holds final := by
  obtain ⟨body, hbody⟩ := sizedConfig_saved
  have hplayed : Played fileWorld ⟨none, none⟩ (raced body) ⟨some (CONFIG_HEADER ++ []), none⟩ :=
    .cons (FileReply.read _) (.cons (FileReply.read _) (.cons (FileReply.write _ _)
      (.cons (FileReply.rename _ _ rfl) (.cons (FileReply.write _ _)
        (.cons (FileReply.rename _ _ rfl) .nil)))))
  have hown : ∀ i, Yields (updateSteps sizeExternal (sizeAndBridge i)).run (own i (raced body))
      (.ok (if i then sizedConfig else Config.default)) := fun i => match i with
    | true => yields_updateSteps.mpr ⟨.notFound, body, Config.default, rfl, rfl, change_size, hbody⟩
    | false => yields_updateSteps.mpr ⟨.notFound, _, Config.default, rfl, rfl, rfl, rfl⟩
  obtain ⟨ps, hrun, hends⟩ := interleaved_of_own hplayed hown
  refine ⟨sizeExternal_readsBack, sizeAndBridge_keys, _, _, ps, _, hrun, hends, ?_⟩
  rintro ⟨final, hfinal, hholds⟩
  have hdefault := load_saveText sizeExternal_readsBack typed_default
    (show saveText sizeExternal Config.default = .ok (CONFIG_HEADER ++ []) from rfl)
  obtain rfl := Except.ok.inj (hdefault.symm.trans hfinal)
  have hsize := (hholds true).value_eq change_size (k := .rootfsSize) (by decide)
  exact absurd (congrArg Size.bytes hsize) (by decide)

/-- One after the other. -/
def inTurn (body : Text) : List (Turn fileSig Bool) :=
  [(true, ⟨.read, .notFound⟩), (true, ⟨.write body, .ok ()⟩), (true, ⟨.rename, .ok ()⟩),
    (false, ⟨.read, .text body⟩), (false, ⟨.write body, .ok ()⟩), (false, ⟨.rename, .ok ()⟩)]

theorem no_clobber_inTurn :
    ∃ body d' final, Played fileWorld ⟨none, none⟩ (inTurn body) d' ∧
      Config.load sizeExternal.configFromYaml d'.found = .ok final ∧
        ∀ i, (sizeAndBridge i).Holds final := by
  obtain ⟨body, hbody⟩ := sizedConfig_saved
  have hplayed : Played fileWorld ⟨none, none⟩ (inTurn body) ⟨some body, none⟩ :=
    .cons (FileReply.read _) (.cons (FileReply.write _ _) (.cons (FileReply.rename _ _ rfl)
      (.cons (FileReply.read _) (.cons (FileReply.write _ _)
        (.cons (FileReply.rename _ _ rfl) .nil)))))
  have hreread : sizedConfig.reread = sizedConfig := reread_eq_self_iff.mpr (by decide)
  have hload : Config.load sizeExternal.configFromYaml (.text body) = .ok sizedConfig := by
    rw [load_saveText sizeExternal_readsBack sizedConfig_typed hbody, hreread]
  have hown : ∀ i, Yields (updateSteps sizeExternal (sizeAndBridge i)).run (own i (inTurn body))
      (.ok sizedConfig) := fun i => match i with
    | true => yields_updateSteps.mpr ⟨.notFound, body, Config.default, rfl, rfl, change_size, hbody⟩
    | false => yields_updateSteps.mpr ⟨.text body, body, sizedConfig, rfl, hload, rfl, hbody⟩
  obtain ⟨ps, hrun, hends⟩ := interleaved_of_own hplayed hown
  have hwhole : (sizeAndBridge true).Whole := by
    rintro - s hs
    obtain rfl := Except.ok.inj (size_20G.symm.trans hs)
    exact .inl (by decide)
  have hafter : AfterRename (inTurn body) false :=
    ⟨(inTurn body).take 3, (inTurn body).drop 3, rfl, .tail _ (.tail _ (.head _)), _, .head _⟩
  obtain ⟨final, hfinal, hholds⟩ :=
    (no_clobber_iff sizeExternal_readsBack sizeAndBridge_keys hrun hends).mpr
      ⟨false, rfl, trivial, .inl ⟨hafter, hwhole⟩⟩
  exact ⟨body, _, final, hplayed, hfinal, hholds⟩

end PveCompose
