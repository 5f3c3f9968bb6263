import Verilog.Proofs.Preprocess.Passage
import Verilog.Proofs.Preprocess.Sparing

/-!
# Two programs side by side

Two texts that have passages in common are preprocessed by programs that go *abreast* there: what
one of them reports, defines and writes, so does the other, up to places in the texts
(`Preprocessing.Abreast`). The states they go through have macros that are alike, the same
expansions open, and sessions in which something has been reported since the same beginning
(`Preprocessing.Peers`). Which inclusions are open may differ, and need only stay as it is.

How alike the macros are, and whether the same is reported, is laid down beforehand
(`Preprocessing.PeerSetting`). Where it is, both programs fail with the same to say if they fail.

The first of the two programs may lapse, and then nothing is said. So what the second one makes of a
place is nowhere asked for where the first spares it.
-/

namespace Verilog

open Preprocessing Step

/-! ### What is said wherever it stands -/

/-- What a diagnostic says, wherever it is placed. -/
def Diagnostic.saying (d : Diagnostic) : DiagnosticKind × String := (d.kind, d.message)

namespace Session

/-- What the diagnostics of a session say, in order. -/
def sayings (s : Session) : List (DiagnosticKind × String) :=
  s.diagnostics.toList.map Diagnostic.saying

/-- The session of a configuration with other macros defined from the start. -/
def seeding (s : Session) (defines : OrderedMap String String) : Session :=
  { s with config := { s.config with defines } }

@[simp] theorem includeDirs_seeding (s : Session) (defines : OrderedMap String String) :
    (s.seeding defines).config.includeDirs = s.config.includeDirs := rfl

@[simp] theorem files_seeding (s : Session) (defines : OrderedMap String String) :
    (s.seeding defines).files = s.files := rfl

theorem sayings_add (s : Session) (d : Diagnostic) :
    (s.add d).sayings = s.sayings ++ [d.saying] := by
  simp [sayings, add]

/-- The macros that are defined from the start are nothing to reports. -/
theorem addAll_seeding (s : Session) (defines : OrderedMap String String) (ds : List Diagnostic) :
    (s.seeding defines).addAll ds = (s.addAll ds).seeding defines := by
  induction ds generalizing s with
  | nil => rfl
  | cons d ds ih => exact ih (s.add d)

end Session

/-- Do two runs stop at first errors that say the same? -/
def Failure.StopsAlike (e₁ e₂ : Failure) : Prop :=
  ∃ d₁ d₂, e₁ = .firstError d₁ ∧ e₂ = .firstError d₂ ∧ d₁.saying = d₂.saying

namespace Preprocessing

/-! ### Programs that go abreast -/

/-- What is added to the texts of two states, up to a relation. -/
def Added (T : List Char → List Char → Prop) (st₁ st₂ after₁ after₂ : PreprocessState) : Prop :=
  ∃ u v, after₁.text.toList = st₁.text.toList ++ u ∧ after₂.text.toList = st₂.text.toList ++ v ∧
    T u v

/-- May what is added twice be added at once? -/
structure Joins (T : List Char → List Char → Prop) : Prop where
  nil : T [] []
  append : ∀ {s t u v}, T s t → T u v → T (s ++ u) (t ++ v)

theorem joins_eq : Joins Eq := ⟨rfl, fun h h' => by rw [h, h']⟩

/-- How two programs may fail: the failures, each with the session it leaves. -/
abbrev Failing := Failure → Session → Failure → Session → Prop

/-- Do two programs both come to such an end, or both fail so, unless the first one lapses? -/
def EndAbreast {α β : Type} (E : Failing) (Q : α → PreprocessState → β → PreprocessState → Prop) :
    Ending PreprocessState α → Ending PreprocessState β → Prop
  | .ok a after₁, .ok b after₂ => Q a after₁ b after₂
  | .ok _ _, .error _ _ => False
  | .error e _, .ok _ _ => e = lapse
  | .error e₁ after₁, .error e₂ after₂ => e₁ = lapse ∨ E e₁ after₁.session e₂ after₂.session

/-- **Do two programs go abreast?** From states that are related they come to states that are, with
results that are, and with what they add to the texts related too. -/
def Abreast {α β : Type} (E : Failing) (R : PreprocessState → PreprocessState → Prop)
    (T : List Char → List Char → Prop) (Q : α → β → Prop) (x : Preprocessing α)
    (y : Preprocessing β) : Prop :=
  ∀ st₁ st₂, R st₁ st₂ → EndAbreast E (fun a after₁ b after₂ =>
    Q a b ∧ R after₁ after₂ ∧ Added T st₁ st₂ after₁ after₂) (x st₁) (y st₂)

section

variable {α β γ δ : Type} {E : Failing} {R : PreprocessState → PreprocessState → Prop}
  {T : List Char → List Char → Prop} {P Q : α → β → Prop} {S : γ → δ → Prop}
  {x : Preprocessing α} {y : Preprocessing β} {st₁ st₂ mid₁ mid₂ after₁ after₂ : PreprocessState}

theorem Added.none (hT : Joins T) (h₁ : after₁.text = st₁.text) (h₂ : after₂.text = st₂.text) :
    Added T st₁ st₂ after₁ after₂ := ⟨[], [], by simp [h₁], by simp [h₂], hT.nil⟩

theorem Added.trans (hT : Joins T) (h : Added T st₁ st₂ mid₁ mid₂)
    (h' : Added T mid₁ mid₂ after₁ after₂) : Added T st₁ st₂ after₁ after₂ := by
  obtain ⟨u, v, hu, hv, huv⟩ := h
  obtain ⟨u', v', hu', hv', huv'⟩ := h'
  exact ⟨u ++ u', v ++ v', by rw [hu', hu, List.append_assoc], by rw [hv', hv, List.append_assoc],
    hT.append huv huv'⟩

theorem EndAbreast.mono {P Q : α → PreprocessState → β → PreprocessState → Prop}
    {r : Ending PreprocessState α} {r' : Ending PreprocessState β} (h : EndAbreast E P r r')
    (hPQ : ∀ a after₁ b after₂, r = .ok a after₁ → r' = .ok b after₂ → P a after₁ b after₂ →
      Q a after₁ b after₂) : EndAbreast E Q r r' := by
  cases r <;> cases r'
  · exact hPQ _ _ _ _ rfl rfl h
  · exact h
  · exact h
  · exact h

/-- After a lapse of the first program it does not matter what the second one does. -/
theorem EndAbreast.of_lapse {Q : α → PreprocessState → β → PreprocessState → Prop}
    (r : Ending PreprocessState β) : EndAbreast E Q (.error lapse st₁) r := by
  cases r with
  | ok b after => rfl
  | error e after => exact .inl rfl

/-- Where the first program comes to an end, so does the second one. -/
theorem EndAbreast.exists_ok {Q : α → PreprocessState → β → PreprocessState → Prop} {a : α}
    {r : Ending PreprocessState β} (h : EndAbreast E Q (.ok a after₁) r) :
    ∃ b after₂, r = .ok b after₂ ∧ Q a after₁ b after₂ := by
  cases r with
  | ok b after₂ => exact ⟨b, after₂, rfl, h⟩
  | error e after₂ => exact h.elim

/-- Two programs that do one thing after the other. -/
theorem EndAbreast.bind {P : α → PreprocessState → β → PreprocessState → Prop}
    {Q : γ → PreprocessState → δ → PreprocessState → Prop} {f : α → Preprocessing γ}
    {g : β → Preprocessing δ} (h : EndAbreast E P (x st₁) (y st₂))
    (hPQ : ∀ a after₁ b after₂, x st₁ = .ok a after₁ → y st₂ = .ok b after₂ →
      P a after₁ b after₂ → EndAbreast E Q (f a after₁) (g b after₂)) :
    EndAbreast E Q ((x >>= f) st₁) ((y >>= g) st₂) := by
  rw [Step.bind_eq, Step.bind_eq]
  cases hx : x st₁ <;> cases hy : y st₂ <;> rw [hx, hy] at h
  · exact hPQ _ _ _ _ hx hy h
  · exact h.elim
  · obtain rfl := h
    exact .of_lapse _
  · exact h

namespace Abreast

theorem mono (h : Abreast E R T P x y) (hPQ : ∀ a b, P a b → Q a b) : Abreast E R T Q x y :=
  fun st₁ st₂ hst => (h st₁ st₂ hst).mono fun _ _ _ _ _ _ hend => hend.imp_left (hPQ _ _)

theorem pure (hT : Joins T) {a : α} {b : β} (h : Q a b) :
    Abreast E R T Q (Pure.pure a) (Pure.pure b) :=
  fun _ _ hst => ⟨h, hst, .none hT rfl rfl⟩

theorem bind (hT : Joins T) {f : α → Preprocessing γ} {g : β → Preprocessing δ}
    (h : Abreast E R T Q x y) (hfg : ∀ a b, Q a b → Abreast E R T S (f a) (g b)) :
    Abreast E R T S (x >>= f) (y >>= g) := fun st₁ st₂ hst =>
  (h st₁ st₂ hst).bind fun a mid₁ b mid₂ _ _ ⟨hab, hmid, hadded⟩ =>
    (hfg a b hab mid₁ mid₂ hmid).mono fun _ _ _ _ _ _ hend =>
      ⟨hend.1, hend.2.1, hadded.trans hT hend.2.2⟩

/-- Whatever the first program does after a lapse. -/
theorem lapses : Abreast E R T Q (throw lapse) y := fun _ st₂ _ => .of_lapse (y st₂)

/-- Two programs that first look at their states. -/
theorem look {f : PreprocessState → Preprocessing α} {g : PreprocessState → Preprocessing β}
    (h : ∀ st₁ st₂, R st₁ st₂ → Abreast E R T Q (f st₁) (g st₂)) :
    Abreast E R T Q (get >>= f) (get >>= g) := fun st₁ st₂ hst => h st₁ st₂ hst st₁ st₂ hst

/-- Two programs that change their states and add nothing to the texts. -/
theorem modify (hT : Joins T) {f g : PreprocessState → PreprocessState}
    (h : ∀ st₁ st₂, R st₁ st₂ → R (f st₁) (g st₂)) (hf : ∀ st, (f st).text = st.text)
    (hg : ∀ st, (g st).text = st.text) :
    Abreast E R T (fun _ _ => True) (modify f) (modify g) :=
  fun st₁ st₂ hst => ⟨trivial, h st₁ st₂ hst, .none hT (hf st₁) (hg st₂)⟩

/-- **Two scans** of lists whose items go abreast. What is asked of a result may hang on the items
that are still to come. -/
theorem foldlM (hT : Joins T) {τ υ : Type} {A : τ → υ → Prop} {V : List τ → γ → δ → Prop}
    {f : γ → τ → Preprocessing γ} {g : δ → υ → Preprocessing δ}
    (hfg : ∀ t u ts c d, A t u → V (t :: ts) c d → Abreast E R T (V ts) (f c t) (g d u))
    {ts : List τ} {us : List υ} (hall : List.Forall₂ A ts us) {c : γ} {d : δ} (h : V ts c d) :
    Abreast E R T (V []) (ts.foldlM f c) (us.foldlM g d) := by
  induction hall generalizing c d with
  | nil => exact .pure hT h
  | cons htu _ ih =>
    rw [List.foldlM_cons, List.foldlM_cons]
    exact (hfg _ _ _ c d htu h).bind hT fun _ _ hnext => ih hnext

theorem forM (hT : Joins T) {τ υ : Type} {A : τ → υ → Prop} {f : τ → Preprocessing PUnit}
    {g : υ → Preprocessing PUnit}
    (hfg : ∀ t u, A t u → Abreast E R T (fun _ _ => True) (f t) (g u)) {ts : List τ} {us : List υ}
    (hall : List.Forall₂ A ts us) : Abreast E R T (fun _ _ => True) (ts.forM f) (us.forM g) := by
  induction hall with
  | nil => exact .pure hT trivial
  | cons htu _ ih => exact (hfg _ _ htu).bind hT fun _ _ _ => ih

end Abreast

end

/-! ### States side by side -/

/-- **What two programs begin with that go abreast, and how alike they are**: the second one may
have been started with other macros. -/
structure PeerSetting where
  session : Session
  /-- The macros that the second program was started with. -/
  defines : OrderedMap String String
  /-- The files that are being preprocessed on either side. -/
  including₁ : List String
  including₂ : List String
  macros : MacroLikeness
  /-- Is the same reported? -/
  reporting : Prop
  /-- Is the delimiter of marks nowhere, so that the texts are the same but for marks? -/
  clean : Prop

namespace PeerSetting

/-- The same macros up to sites, whatever is reported. -/
def upToSites (session : Session) (including₁ including₂ : List String) : PeerSetting where
  session
  defines := session.config.defines
  including₁
  including₂
  macros := .upToSites
  reporting := False
  clean := True

/-- Programs that are to report the same fail with the same to say. -/
def Fails (c : PeerSetting) : Failing := fun e₁ s₁ e₂ s₂ =>
  c.reporting → e₁.StopsAlike e₂ ∧ s₁.sayings = s₂.sayings

end PeerSetting

/-- **Do two states stand side by side?** -/
structure Peers (c : PeerSetting) (st₁ st₂ : PreprocessState) : Prop where
  session₁ : ∃ ds, st₁.session = c.session.addAll ds
  session₂ : ∃ ds, st₂.session = (c.session.seeding c.defines).addAll ds
  reports : c.reporting → st₁.session.sayings = st₂.session.sayings
  macros : c.macros.Tables st₁.macros st₂.macros
  expanding : st₁.expanding = st₂.expanding
  including₁ : st₁.including = c.including₁
  including₂ : st₂.including = c.including₂

variable {c : PeerSetting} {st₁ st₂ after₁ after₂ : PreprocessState}

/-- Changes of what is neither the session, the macros nor what is open. -/
theorem Peers.of_eq (h : Peers c st₁ st₂) (hs₁ : after₁.session = st₁.session)
    (hs₂ : after₂.session = st₂.session) (hm₁ : after₁.macros = st₁.macros)
    (hm₂ : after₂.macros = st₂.macros) (he₁ : after₁.expanding = st₁.expanding)
    (he₂ : after₂.expanding = st₂.expanding) (hi₁ : after₁.including = st₁.including)
    (hi₂ : after₂.including = st₂.including) : Peers c after₁ after₂ where
  session₁ := hs₁ ▸ h.session₁
  session₂ := hs₂ ▸ h.session₂
  reports := hs₁ ▸ hs₂ ▸ h.reports
  macros := hm₁ ▸ hm₂ ▸ h.macros
  expanding := by rw [he₁, he₂, h.expanding]
  including₁ := hi₁.trans h.including₁
  including₂ := hi₂.trans h.including₂

/-- The same text is written on both sides. -/
theorem abreast_emit (s : String) :
    Abreast c.Fails (Peers c) Eq (fun _ _ => True) (emit s) (emit s) :=
  fun _ _ hst => ⟨trivial, hst.of_eq rfl rfl rfl rfl rfl rfl rfl rfl, s.toList, s.toList,
    String.toList_append, String.toList_append, rfl⟩

theorem exists_addAll_add {s t : Session} (h : ∃ ds, t = s.addAll ds) (d : Diagnostic) :
    ∃ ds, t.add d = s.addAll ds := by
  obtain ⟨ds, rfl⟩ := h
  exact ⟨ds ++ [d], by rw [Session.addAll, Session.addAll, List.foldl_append]; rfl⟩

/-- What is reported on both sides may stand in different places. -/
theorem abreast_report (fault : DirectiveFault) (place₁ place₂ : FilePlace) :
    Abreast c.Fails (Peers c) Eq (fun _ _ => True) (report (fault.diagnostic place₁))
      (report (fault.diagnostic place₂)) := by
  intro st₁ st₂ hst
  have hconfig₁ : st₁.session.config.failFast = c.session.config.failFast := by
    obtain ⟨ds, hds⟩ := hst.session₁
    rw [hds, Session.config_addAll]
  have hconfig₂ : st₂.session.config.failFast = c.session.config.failFast := by
    obtain ⟨ds, hds⟩ := hst.session₂
    rw [hds, Session.config_addAll, Session.seeding]
  have hsays : c.reporting → (st₁.session.add (fault.diagnostic place₁)).sayings =
      (st₂.session.add (fault.diagnostic place₂)).sayings := fun hc => by
    rw [Session.sayings_add, Session.sayings_add, hst.reports hc]
    rfl
  rw [report, report, Step.onPart, Step.onPart, Verilog.report_eq, Verilog.report_eq, hconfig₁,
    hconfig₂]
  have hseverity : (fault.diagnostic place₁).severity = (fault.diagnostic place₂).severity := rfl
  rw [hseverity]
  by_cases hstop : (c.session.config.failFast && (fault.diagnostic place₂).severity.isError) = true
  · simp only [hstop, if_true]
    exact .inr fun hc => ⟨⟨_, _, rfl, rfl, rfl⟩, hsays hc⟩
  · simp only [hstop]
    exact ⟨trivial, ⟨exists_addAll_add hst.session₁ _, exists_addAll_add hst.session₂ _, hsays,
      hst.macros, hst.expanding, hst.including₁, hst.including₂⟩, .none joins_eq rfl rfl⟩

/-- **What goes on apart on both sides** writes the same there. -/
theorem Abreast.apart {x y : Preprocessing Unit}
    (h : Abreast c.Fails (Peers c) Eq (fun _ _ => True) x y) (name : String) :
    Abreast c.Fails (Peers c) Eq Eq (Preprocessing.apart x name) (Preprocessing.apart y name) := by
  intro st₁ st₂ hst
  have hrun := h { st₁ with text := "", expanding := name :: st₁.expanding }
    { st₂ with text := "", expanding := name :: st₂.expanding }
    ⟨hst.session₁, hst.session₂, hst.reports, hst.macros, congrArg (name :: ·) hst.expanding,
      hst.including₁, hst.including₂⟩
  rw [Preprocessing.apart, Preprocessing.apart]
  generalize x { st₁ with text := "", expanding := name :: st₁.expanding } = r₁,
    y { st₂ with text := "", expanding := name :: st₂.expanding } = r₂ at hrun ⊢
  cases r₁ with
  | error e after₁ => cases r₂ <;> exact hrun
  | ok a after₁ =>
    cases r₂ with
    | error e after₂ => exact hrun
    | ok b after₂ =>
      obtain ⟨-, hafter, u, v, hu, hv, rfl⟩ := hrun
      exact ⟨String.toList_injective (hu.trans hv.symm), ⟨hafter.session₁, hafter.session₂,
        hafter.reports, hafter.macros, hst.expanding, hafter.including₁, hafter.including₂⟩,
        .none joins_eq rfl rfl⟩

end Preprocessing

end Verilog
