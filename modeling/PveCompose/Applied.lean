import PveCompose.Node

/-!
# Applied means rendered

One guest, its hostname and the operator's config fixed: documents are written and docker halves
run, in any order and each cut by any failing command.  The facts name a document; the compose file
is what was rendered last.  `Node.recorded` remembers what the file was when the facts were
written.

* `traced_of_history` — **the run lemma**: what the facts name is what the recorded file renders;
* `applied_of_history` — **PROVED**: the facts' document and the compose file agree in every state
  reached, exactly as long as no document is written back to the one the facts name after the
  compose file has moved on (`Undisturbed`);
* `history_not_applied` — a document that is applied, replaced, half applied and reverted.
-/

namespace PveCompose

open Programs

/-- The facts of the guest name its document only if the compose file is that document's. -/
def Applied (x : External) (ctx : Ctx) (host : Option Text) (vmid : ℕ) (s : Node) : Prop :=
  ∀ text f, s.docs vmid = some text → s.facts vmid = some f → f.digest = x.digest text →
    ∃ g rendered, LoadedFrom x ctx host vmid text g ∧ renderGuest x ctx g = .ok rendered ∧
      s.compose vmid = some rendered

/-- Writing `text` does not bring back the document the facts name after the compose file has moved
on from what it was when they were written. -/
def Undisturbed (x : External) (vmid : ℕ) (s : Node) (text : Text) : Prop :=
  ∀ f, s.facts vmid = some f → f.digest = x.digest text → s.compose vmid = s.recorded vmid

/-- Every order of document writes that meet `C` and of docker halves, by hand or from the loop,
each with any answers of the commands it issues. -/
inductive DocHistory (x : External) (ctx : Ctx) (host : Option Text) (vmid : ℕ)
    (C : Node → Text → Prop) : Node → Prop where
  | start {s : Node} : s.compose vmid = none → s.facts vmid = none →
      DocHistory x ctx host vmid C s
  | write {s : Node} (text token : Text) : DocHistory x ctx host vmid C s → C s text →
      DocHistory x ctx host vmid C (s.write vmid text token)
  | hand {s s' : Node} {text : Text} {g : Guest} (o : Options) {tr : List (Event sig)}
      {r : Result Bool} : DocHistory x ctx host vmid C s → s.docs vmid = some text →
      LoadedFrom x ctx host vmid text g → Run nodeWorld s (dockerApplyGuest x ctx g o).run tr r s' →
      DocHistory x ctx host vmid C s'
  | loop {s s' : Node} {text : Text} {g : Guest} {tr : List (Event sig)} {r : Result Unit} :
      DocHistory x ctx host vmid C s → s.docs vmid = some text →
      LoadedFrom x ctx host vmid text g → Run nodeWorld s (dockerHalf x ctx g).run tr r s' →
      DocHistory x ctx host vmid C s'

/-! ### What a history preserves -/

/-- The facts name a document that renders to the recorded file, and when that is the document now,
the compose file still is the recorded one. -/
structure Traced (x : External) (ctx : Ctx) (host : Option Text) (vmid : ℕ) (s : Node) : Prop where
  named : ∀ f, s.facts vmid = some f → ∃ text g rendered, f.digest = x.digest text ∧
    LoadedFrom x ctx host vmid text g ∧ renderGuest x ctx g = .ok rendered ∧
      s.recorded vmid = some rendered
  current : ∀ text f, s.docs vmid = some text → s.facts vmid = some f →
    f.digest = x.digest text → s.compose vmid = s.recorded vmid

section

variable {x : External} {ctx : Ctx} {host : Option Text} {vmid : ℕ} {s s' : Node} {text : Text}
  {g : Guest}

/-- Where the facts name `text`, what is recorded is its render. -/
theorem Traced.recorded_eq (hinj : Function.Injective x.digest) (h : Traced x ctx host vmid s)
    {f : Facts} {rendered : Text} (hf : s.facts vmid = some f) (hd : f.digest = x.digest text)
    (hg : LoadedFrom x ctx host vmid text g) (hr : renderGuest x ctx g = .ok rendered) :
    s.recorded vmid = some rendered := by
  obtain ⟨text₀, g₀, rendered₀, hd₀, hg₀, hr₀, hrec⟩ := h.named f hf
  obtain rfl : text₀ = text := hinj (hd₀.symm.trans hd)
  rw [renderGuest_eq hg₀ hg, hr] at hr₀
  rw [hrec, Except.ok.inj hr₀]

/-- **The step lemma for a docker half**, whichever way it ends. -/
theorem Traced.docker {r : Result Bool} (hinj : Function.Injective x.digest)
    (h : Traced x ctx host vmid s) (hdoc : s.docs vmid = some text)
    (hg : LoadedFrom x ctx host vmid text g) (hend : DockerEnd x ctx g s r s') :
    Traced x ctx host vmid s' := by
  have hvmid : g.vmid = vmid := hg.vmid
  cases hend with
  | untouched => exact h
  | @rendered e rendered hr =>
    rw [hvmid]
    refine ⟨h.named, fun text' f ht hf hd => ?_⟩
    obtain rfl : text = text' := Option.some.inj (hdoc.symm.trans ht)
    have hrec := h.recorded_eq hinj hf hd hg hr
    show Function.update s.compose vmid (some rendered) vmid = s.recorded vmid
    rw [Function.update_self, hrec]
  | @recorded r rendered f hr hd =>
    rw [hvmid]
    have hcompose : (s.setCompose vmid rendered).compose vmid = some rendered :=
      Function.update_self _ _ _
    have hrec : ((s.setCompose vmid rendered).setFacts vmid f).recorded vmid = some rendered := by
      show Function.update _ vmid _ vmid = _
      rw [Function.update_self, hcompose]
    refine ⟨fun f' hf' => ?_, fun _ _ _ _ _ => ?_⟩
    · have hf : f = f' := by
        have hself : ((s.setCompose vmid rendered).setFacts vmid f).facts vmid = some f :=
          Function.update_self _ _ _
        exact Option.some.inj (hself.symm.trans hf')
      subst hf
      exact ⟨text, g, rendered, hd.trans hg.digest, hg, hr, hrec⟩
    · rw [hrec]
      exact hcompose

/-- **The step lemma for a write.** -/
theorem Traced.write {token : Text} (h : Traced x ctx host vmid s) (hu : Undisturbed x vmid s text) :
    Traced x ctx host vmid (s.write vmid text token) := by
  refine ⟨h.named, fun text' f ht hf hd => ?_⟩
  have hself : (s.write vmid text token).docs vmid = some text := Function.update_self _ _ _
  obtain rfl : text = text' := Option.some.inj (hself.symm.trans ht)
  exact hu f hf hd

/-- **The run lemma.** -/
theorem traced_of_history (hinj : Function.Injective x.digest)
    (h : DocHistory x ctx host vmid (Undisturbed x vmid) s) : Traced x ctx host vmid s := by
  induction h with
  | start _ hf =>
    exact ⟨fun f hf' => absurd (hf.symm.trans hf') nofun,
      fun text f _ hf' => absurd (hf.symm.trans hf') nofun⟩
  | write text token _ hC ih => exact ih.write hC
  | hand o _ hdoc hg hrun ih =>
    have hend := wp_run (wp_dockerApplyGuest (I := fun _ _ => True) (fun _ _ _ => trivial)
      fun _ _ => trivial) hrun
    exact ih.docker hinj hdoc hg hend
  | loop _ hdoc hg hrun ih =>
    have hend := wp_run (wp_dockerHalf (I := fun _ _ => True) (fun _ _ _ => trivial)
      fun _ _ => trivial) hrun
    cases hend with
    | untouched => exact ih
    | skipped _ => exact ih
    | applied _ hend => exact ih.docker hinj hdoc hg hend

/-- **Applied means rendered (proved)**, in every history whose writes are all undisturbed; and a
write that is not breaks it at once. -/
theorem applied_of_history (hinj : Function.Injective x.digest)
    (h : DocHistory x ctx host vmid (Undisturbed x vmid) s) :
    Applied x ctx host vmid s ∧ ∀ text token,
      Applied x ctx host vmid (s.write vmid text token) ↔ Undisturbed x vmid s text := by
  have happlied : ∀ {s : Node}, Traced x ctx host vmid s → Applied x ctx host vmid s := by
    intro s h text f ht hf hd
    obtain ⟨text₀, g, rendered, hd₀, hg, hr, hrec⟩ := h.named f hf
    obtain rfl : text₀ = text := hinj (hd₀.symm.trans hd)
    exact ⟨g, rendered, hg, hr, (h.current _ f ht hf hd).trans hrec⟩
  have htraced := traced_of_history hinj h
  refine ⟨happlied htraced, fun text token => ⟨fun ha f hf hd => ?_, fun hu => ?_⟩⟩
  · obtain ⟨g, rendered, hg, hr, hcompose⟩ := ha text f (Function.update_self _ _ _) hf hd
    rw [htraced.recorded_eq hinj hf hd hg hr]
    exact hcompose
  · exact happlied (htraced.write hu)

end

/-! ### Two documents of one guest -/

def webGuest (image : Text) : Guest where
  config := { emptyConfig 105 with hostname := some "web", unprivileged := true }
  read := { vmid := 105, text := webText image, digest := webExternal.digest (webText image)
            doc := webDoc image }
  volumes := []

/-- A node with the guest and its first document, nothing applied. -/
def webNode : Node where
  docs _ := some (webText "nginx")
  token := "1"
  file := .notFound
  conf _ := webConf
  compose _ := none
  facts _ := none
  recorded _ := none

def webScript (upFails : Bool) : Script := { now := 0, listed := [], upFails }

def handOptions : Options := { pull := false, noUp := false, onlyIfUp := false }

/-- The node after a docker half. -/
def afterDocker (image : Text) (upFails : Bool) (s : Node) : Node :=
  ((dockerApplyGuest webExternal webCtx (webGuest image) handOptions).run.interpret
    (webScript upFails).answer s).2

theorem webGuest_loaded {image : Text} (h : parse webExternal.docFromYaml (webText image)
    = .ok (webDoc image)) :
    LoadedFrom webExternal webCtx (some "web") 105 (webText image) (webGuest image) :=
  ⟨rfl, rfl, rfl, h, rfl⟩

theorem history_afterDocker {C : Node → Text → Prop} {s : Node} {image : Text} (upFails : Bool)
    (h : DocHistory webExternal webCtx (some "web") 105 C s)
    (hdoc : s.docs 105 = some (webText image))
    (hparse : parse webExternal.docFromYaml (webText image) = .ok (webDoc image)) :
    DocHistory webExternal webCtx (some "web") 105 C (afterDocker image upFails s) := by
  obtain ⟨tr, hrun⟩ := run_interpret (W := nodeWorld) (webScript upFails).answer_effect
    (dockerApplyGuest webExternal webCtx (webGuest image) handOptions).run s
  exact .hand handOptions h hdoc (webGuest_loaded hparse) hrun

/-- The first document is applied, the second one written. -/
def webReplaced : Node := (afterDocker "nginx" false webNode).write 105 (webText "caddy") "2"

/-- The second document is rendered, its `up` fails, and the first one is written back. -/
def webReverted : Node := (afterDocker "caddy" true webReplaced).write 105 (webText "nginx") "3"

theorem web_parse_nginx :
    parse webExternal.docFromYaml (webText "nginx") = .ok (webDoc "nginx") := rfl

theorem web_parse_caddy :
    parse webExternal.docFromYaml (webText "caddy") = .ok (webDoc "caddy") := rfl

/-- A failed `up` between two documents leaves nothing said that is not so. -/
theorem applied_of_history_web :
    Applied webExternal webCtx (some "web") 105 (afterDocker "caddy" true webReplaced) := by
  obtain ⟨hfacts, hdigest, hdoc⟩ : ((afterDocker "nginx" false webNode).facts 105).map Facts.digest
        = some (webExternal.digest (webText "nginx")) ∧
      webExternal.digest (webText "nginx") ≠ webExternal.digest (webText "caddy") ∧
      webReplaced.docs 105 = some (webText "caddy") := by decide +kernel
  have happlied := history_afterDocker (C := Undisturbed webExternal 105) false
    (.start (s := webNode) rfl rfl) rfl web_parse_nginx
  have hreplaced : DocHistory webExternal webCtx (some "web") 105 (Undisturbed webExternal 105)
      webReplaced := by
    refine .write _ "2" happlied fun f hf hd => ?_
    rw [hf, Option.map_some, hd, Option.some.injEq] at hfacts
    exact absurd hfacts.symm hdigest
  exact (applied_of_history webDigest_injective
    (history_afterDocker true hreplaced hdoc web_parse_caddy)).1

/-- **A revert after a half-done apply.**  The facts name the document that is there, and the
compose file is the other one's. -/
theorem history_not_applied :
    DocHistory webExternal webCtx (some "web") 105 (fun _ _ => True) webReverted ∧
      ¬ Applied webExternal webCtx (some "web") 105 webReverted := by
  constructor
  · have happlied := history_afterDocker (C := fun _ _ => True) false
      (.start (s := webNode) rfl rfl) rfl web_parse_nginx
    have hreplaced := DocHistory.write (webText "caddy") "2" happlied trivial
    exact .write _ "3" (history_afterDocker true hreplaced (by decide +kernel) web_parse_caddy)
      trivial
  · intro h
    obtain ⟨hfacts, hcompose, hrender, hdoc, hne⟩ : (webReverted.facts 105).map Facts.digest
          = some (webExternal.digest (webText "nginx")) ∧
        webReverted.compose 105 = some (webRendered "caddy") ∧
        renderGuest webExternal webCtx (webGuest "nginx") = .ok (webRendered "nginx") ∧
        webReverted.docs 105 = some (webText "nginx") ∧
        some (webRendered "caddy") ≠ some (webRendered "nginx") := by decide +kernel
    obtain ⟨f, hf, hd⟩ := Option.map_eq_some_iff.mp hfacts
    obtain ⟨g, rendered, hg, hr, hc⟩ := h (webText "nginx") f hdoc hf hd
    rw [renderGuest_eq hg (webGuest_loaded web_parse_nginx), hrender] at hr
    rw [hcompose, ← Except.ok.inj hr] at hc
    exact absurd hc hne

end PveCompose
