import Verilog.Proofs.Session

/-!
# How steps are put together

The programs that preprocess a text or compile files have a session in their state, and do nothing
with it but report. This is said in two ways. By how a program is made: it is *composed* of steps
that leave the session alone, look at it no more than they may, report, or go on elsewhere for a
while (`Step.Composed`). And by what it does: it reports a list of diagnostics that hangs on nothing
but what it may look at, and ends as it would without reporting, unless a report stops it
(`Step.Reports`). The first is checked of each program once; the second, and whatever relation the
steps keep (`Step.Composed.keeps`), follow by induction.
-/

namespace Verilog

/-! ### Lists of reports -/

namespace Session

/-- Adds diagnostics in order. -/
def addAll (s : Session) (ds : List Diagnostic) : Session := ds.foldl add s

/-- The session of a run that is to stop at the first error, or not. -/
def stopping (s : Session) (failFast : Bool) : Session :=
  { s with config := { s.config with failFast } }

/-- Do two sessions differ in nothing but whether their runs are to stop at the first error? -/
def UpToStopping (s t : Session) : Prop := ∃ failFast, t = s.stopping failFast

variable {s : Session} {ds es : List Diagnostic}

theorem UpToStopping.refl (s : Session) : UpToStopping s s := ⟨s.config.failFast, rfl⟩

@[simp] theorem config_addAll : (s.addAll ds).config = s.config := by
  induction ds generalizing s with
  | nil => rfl
  | cons d ds ih => exact ih

theorem diagnostics_addAll : (s.addAll ds).diagnostics = s.diagnostics ++ ds.toArray := by
  induction ds generalizing s with
  | nil => simp [addAll]
  | cons d ds ih =>
    have hadd : (s.add d).diagnostics = s.diagnostics ++ #[d] := rfl
    rw [addAll, List.foldl_cons]
    exact ih.trans (by rw [hadd, Array.append_assoc, ← List.toArray_cons])

end Session

/-- Reports diagnostics in order. -/
def reportAll (ds : List Diagnostic) : Reporting Unit := ds.forM report

section

variable {s : Session} {d : Diagnostic} {ds es : List Diagnostic}

theorem reportAll_cons : reportAll (d :: ds) s =
    if s.config.failFast && d.severity.isError then .error (.firstError d) (s.add d)
    else reportAll ds (s.add d) := by
  change EStateM.bind (report d) (fun _ => reportAll ds) s = _
  rw [EStateM.bind, report_eq]
  by_cases h : (s.config.failFast && d.severity.isError) = true
  · rw [if_pos h, if_pos h]
  · rw [if_neg h, if_neg h]

theorem reportAll_append : reportAll (ds ++ es) s = match reportAll ds s with
    | .ok _ s' => reportAll es s'
    | .error e s' => .error e s' := by
  induction ds generalizing s with
  | nil => rfl
  | cons d ds ih =>
    rw [List.cons_append, reportAll_cons, reportAll_cons]
    split
    · rfl
    · exact ih

/-- In a run that does not stop at errors everything is reported. -/
theorem reportAll_of_lenient (hs : s.config.failFast = false) :
    reportAll ds s = .ok () (s.addAll ds) := by
  induction ds generalizing s with
  | nil => rfl
  | cons d ds ih =>
    rw [reportAll_cons, hs, Bool.false_and, if_neg Bool.false_ne_true]
    exact ih hs

/-- Reporting fails only where a run is to stop at the first error. -/
theorem firstError_of_reportAll {e : Failure} {s' : Session} (h : reportAll ds s = .error e s') :
    s.config.failFast = true ∧ ∃ d, e = .firstError d := by
  induction ds generalizing s with
  | nil => cases h
  | cons d ds ih =>
    rw [reportAll_cons] at h
    split at h
    · rename_i hstop
      obtain ⟨rfl, -⟩ := EStateM.Result.error.inj h
      exact ⟨(Bool.and_eq_true_iff.mp hstop).1, d, rfl⟩
    · exact ih (s := s.add d) h

theorem eq_addAll_of_reportAll {s' : Session} (h : reportAll ds s = .ok () s') :
    s' = s.addAll ds := by
  induction ds generalizing s with
  | nil => exact (EStateM.Result.ok.inj h).2.symm
  | cons d ds ih =>
    rw [reportAll_cons] at h
    split at h
    · cases h
    · exact ih h

end

/-! ### States with a session -/

/-- A state of which a session is a part. -/
class HasSession (σ : Type) where
  sessionOf : σ → Session
  putSession : Session → σ → σ
  sessionOf_putSession (s : Session) (st : σ) : sessionOf (putSession s st) = s
  putSession_sessionOf (st : σ) : putSession (sessionOf st) st = st
  putSession_putSession (s s' : Session) (st : σ) :
    putSession s (putSession s' st) = putSession s st

export HasSession (sessionOf putSession)

attribute [simp] HasSession.sessionOf_putSession HasSession.putSession_sessionOf
  HasSession.putSession_putSession

instance : HasSession Session where
  sessionOf s := s
  putSession s _ := s
  sessionOf_putSession _ _ := rfl
  putSession_sessionOf _ := rfl
  putSession_putSession _ _ _ := rfl

/-- How a program ends. -/
abbrev Ending (σ α : Type) := EStateM.Result Failure σ α

namespace Ending

/-- The state at the end. -/
def state {σ α : Type} : Ending σ α → σ
  | .ok _ st => st
  | .error _ st => st

/-- What the program gives, if it gives something. -/
def toExcept {σ α : Type} : Ending σ α → Except Failure α
  | .ok a _ => .ok a
  | .error e _ => .error e

/-- The same end with another session. -/
def inSession {σ α : Type} [HasSession σ] (s : Session) : Ending σ α → Ending σ α
  | .ok a st => .ok a (putSession s st)
  | .error e st => .error e (putSession s st)

end Ending

namespace Step

variable {σ τ α β : Type} [HasSession σ] [HasSession τ]

/-! ### Programs that do nothing with the session but report -/

/-- Is this an end of a program that reports these diagnostics in a session, and would end so
without them? -/
def EndsAs (ds : List Diagnostic) (r : Ending σ α) (s : Session) (run : Ending σ α) : Prop :=
  match reportAll ds s with
  | .ok _ s' => run = Ending.inSession s' r
  | .error e s' => ∃ st, run = .error e st ∧ sessionOf st = s'

/-- Are the sessions that are alike to a program still so when a diagnostic was added to both? -/
def Alike (F : Session → Session → Prop) : Prop := ∀ s t d, F s t → F (s.add d) (t.add d)

/-- **Does a program do nothing with the session but report?** What it reports, and how it ends
otherwise, is the same in all sessions that are alike; the failures are those of some kind. -/
def Reports (F : Session → Session → Prop) (X : Failure → Prop) (x : Step σ α) : Prop :=
  ∀ st, ∃ ds r, (∀ e st', r = .error e st' → X e) ∧
    ∀ s, F (sessionOf st) s → EndsAs ds r s (x (putSession s st))

variable {F : Session → Session → Prop} {X : Failure → Prop} {Q : σ → σ → Prop} {x : Step σ α}

theorem alike_upToStopping : Alike Session.UpToStopping := by
  rintro s _ d ⟨failFast, rfl⟩
  exact ⟨failFast, rfl⟩

theorem Alike.addAll (hF : Alike F) {s t : Session} (h : F s t) (ds : List Diagnostic) :
    F (s.addAll ds) (t.addAll ds) := by
  induction ds generalizing s t with
  | nil => exact h
  | cons d ds ih => exact ih (hF s t d h)

namespace Reports

/-- A program that leaves the session alone. -/
theorem of_quiet {f : σ → Ending σ α} (hx : ∀ st, x st = f st)
    (hf : ∀ st s, F (sessionOf st) s → f (putSession s st) = Ending.inSession s (f st))
    (hX : ∀ st e st', f st = .error e st' → X e) : Reports F X x :=
  fun st => ⟨[], f st, hX st, fun s h => (hx _).trans (hf st s h)⟩

theorem pure (a : α) : Reports F X (pure a : Step σ α) :=
  of_quiet (f := fun st => .ok a st) (fun _ => rfl) (fun _ _ _ => rfl) fun _ _ _ h => nomatch h

theorem modifyGet {f : σ → α × σ}
    (hblind : ∀ st s, f (putSession s st) = ((f st).1, putSession s (f st).2)) :
    Reports F X (modifyGet f : Step σ α) := by
  refine of_quiet (f := fun st => .ok (f st).1 (f st).2) (fun _ => rfl) (fun st s _ => ?_)
    fun _ _ _ h => nomatch h
  rw [hblind]
  rfl

theorem throw {e : Failure} (he : X e) : Reports F X (throw e : Step σ α) :=
  of_quiet (f := fun st => .error e st) (fun _ => rfl) (fun _ _ _ => rfl)
    fun _ _ _ h => (EStateM.Result.error.inj h).1 ▸ he

/-- What a program reports, the next one goes on from. -/
theorem bind (hF : Alike F) {f : α → Step σ β} (hx : Reports F X x)
    (hf : ∀ a, Reports F X (f a)) : Reports F X (x >>= f) := by
  intro st
  obtain ⟨ds, r, hX, hr⟩ := hx st
  cases r with
  | error e after =>
    -- a program that fails by itself reports nothing more
    refine ⟨ds, .error e after, fun e' st' h => ?_, fun s hs => ?_⟩
    · obtain ⟨rfl, -⟩ := EStateM.Result.error.inj h
      exact hX _ _ rfl
    · have hs := hr s hs
      rw [EndsAs, bind_eq] at *
      split at hs
      · rw [hs]
        rfl
      · obtain ⟨st', hst', hend⟩ := hs
        exact ⟨st', by rw [hst'], hend⟩
  | ok a mid =>
    -- the next program starts where all that was reported has been added
    obtain ⟨es, r', hX', hr'⟩ := hf a (putSession ((sessionOf st).addAll ds) mid)
    refine ⟨ds ++ es, r', hX', fun s hs => ?_⟩
    have hx := hr s hs
    rw [EndsAs] at hx
    rw [EndsAs, reportAll_append, bind_eq]
    cases heq : reportAll ds s with
    | error e s' =>
      rw [heq] at hx
      obtain ⟨st', hst', hend⟩ := hx
      exact ⟨st', by rw [hst'], hend⟩
    | ok u s' =>
      rw [heq] at hx
      obtain rfl := eq_addAll_of_reportAll heq
      have hnext := hr' (s.addAll ds) (by simpa using hF.addAll hs ds)
      rw [HasSession.putSession_putSession] at hnext
      rw [hx]
      exact hnext

/-- A program that looks at the state may look at what is alike in the sessions. -/
theorem look {f : σ → Step σ α} (hblind : ∀ st s, F (sessionOf st) s → f (putSession s st) = f st)
    (hf : ∀ st, Reports F X (f st)) : Reports F X (get >>= f) := by
  intro st
  obtain ⟨ds, r, hX, hr⟩ := hf st st
  refine ⟨ds, r, hX, fun s hs => ?_⟩
  have hrun : (MonadState.get >>= f) (putSession s st) =
      f (putSession s st) (putSession s st) := rfl
  rw [hrun, hblind st s hs]
  exact hr s hs

theorem report (d : Diagnostic) :
    Reports F X (Step.onPart sessionOf putSession (Verilog.report d) : Step σ Unit) := by
  intro st
  refine ⟨[d], .ok () st, fun _ _ h => (by cases h), fun s _ => ?_⟩
  have hone : reportAll [d] s = Verilog.report d s := by
    rw [reportAll_cons, report_eq]
    split <;> rfl
  rw [EndsAs, hone, Step.onPart, HasSession.sessionOf_putSession]
  cases Verilog.report d s with
  | ok u s' => exact congrArg _ (HasSession.putSession_putSession _ _ _)
  | error e s' => exact ⟨_, rfl, HasSession.sessionOf_putSession _ _⟩

/-- **How such a program fails**: with the first error, where a run is to stop at it, or in a way of
its own. -/
theorem failure (hx : Reports F X x) (hrefl : ∀ s, F s s) {st after : σ} {e : Failure}
    (h : x st = .error e after) :
    ((sessionOf st).config.failFast = true ∧ ∃ d, e = .firstError d) ∨ X e := by
  obtain ⟨ds, r, hX, hr⟩ := hx st
  have hend := hr (sessionOf st) (hrefl _)
  rw [EndsAs, HasSession.putSession_sessionOf, h] at hend
  cases heq : reportAll ds (sessionOf st) with
  | error e' s' =>
    rw [heq] at hend
    obtain ⟨st', hst', -⟩ := hend
    obtain ⟨rfl, -⟩ := EStateM.Result.error.inj hst'
    exact .inl (firstError_of_reportAll heq)
  | ok u s' =>
    rw [heq] at hend
    cases r with
    | ok a mid => cases hend
    | error e' mid =>
      obtain ⟨rfl, -⟩ := EStateM.Result.error.inj hend
      exact .inr (hX _ _ rfl)

/-- **What such a program leaves of a session** where it ends with a result: it has only added to it
what it reported. -/
theorem exists_addAll (hx : Reports F X x) (hrefl : ∀ s, F s s) {st after : σ} {a : α}
    (h : x st = .ok a after) : ∃ ds, sessionOf after = (sessionOf st).addAll ds := by
  obtain ⟨ds, r, -, hr⟩ := hx st
  have hend := hr (sessionOf st) (hrefl _)
  rw [EndsAs, HasSession.putSession_sessionOf, h] at hend
  cases heq : reportAll ds (sessionOf st) with
  | error e s' =>
    rw [heq] at hend
    obtain ⟨st', hst', -⟩ := hend
    cases hst'
  | ok u s' =>
    rw [heq] at hend
    cases r with
    | error e mid => cases hend
    | ok b mid =>
      obtain ⟨-, rfl⟩ := EStateM.Result.ok.inj hend
      exact ⟨ds, by rw [HasSession.sessionOf_putSession, eq_addAll_of_reportAll heq]⟩

/-- **What a program gives in one session it gives in every other** that does not stop at errors, if
it is blind to what is in the session. -/
theorem gives_lenient (hx : Reports (fun _ _ => True) X x) {st after : σ} {a : α}
    (h : x st = .ok a after) {s : Session} (hs : s.config.failFast = false) :
    ∃ s', x (putSession s st) = .ok a (putSession s' after) := by
  obtain ⟨ds, r, -, hr⟩ := hx st
  have hhere := hr (sessionOf st) trivial
  have hthere := hr s trivial
  rw [EndsAs, HasSession.putSession_sessionOf, h] at hhere
  rw [EndsAs, reportAll_of_lenient hs] at hthere
  cases hreport : reportAll ds (sessionOf st) with
  | error e s' =>
    rw [hreport] at hhere
    obtain ⟨st', hst', -⟩ := hhere
    cases hst'
  | ok u s' =>
    rw [hreport] at hhere
    cases r with
    | error e mid => cases hhere
    | ok a mid =>
      obtain ⟨rfl, rfl⟩ := EStateM.Result.ok.inj hhere
      exact ⟨s.addAll ds, by rw [hthere, HasSession.putSession_putSession]; rfl⟩

/-- Failures may be more than there are. -/
theorem mono {Y : Failure → Prop} (hx : Reports F X x) (h : ∀ e, X e → Y e) : Reports F Y x := by
  intro st
  obtain ⟨ds, r, hX, hr⟩ := hx st
  exact ⟨ds, r, fun e st' he => h e (hX e st' he), hr⟩

end Reports

/-- A program that goes on elsewhere: from another state, whose session is that of the state it is
started in, and back from the state it ends in. -/
def elsewhere (enter : σ → τ) (leave : σ → τ → σ) (out : α → τ → β) (x : Step τ α) : Step σ β :=
  fun st => match x (enter st) with
    | .ok a after => .ok (out a after) (leave st after)
    | .error e after => .error e (leave st after)

/-- Do a way to another state and the way back take the session along, and look at it no more than
they may? -/
structure Carries (F : Session → Session → Prop) (enter : σ → τ) (leave : σ → τ → σ)
    (out : α → τ → β) : Prop where
  sessionOf_enter (st : σ) : sessionOf (enter st) = sessionOf st
  enter (st : σ) (s : Session) : F (sessionOf st) s → enter (putSession s st) =
    putSession s (enter st)
  leave (st : σ) (after : τ) (s s' : Session) : F (sessionOf st) s →
    leave (putSession s st) (putSession s' after) = putSession s' (leave st after)
  out (a : α) (after : τ) (s : Session) : out a (putSession s after) = out a after

theorem Reports.elsewhere {enter : σ → τ} {leave : σ → τ → σ} {out : α → τ → β} {x : Step τ α}
    (h : Carries F enter leave out) (hx : Reports F X x) :
    Reports F X (elsewhere enter leave out x) := by
  intro st
  obtain ⟨ds, r, hX, hr⟩ := hx (enter st)
  refine ⟨ds, match r with
    | .ok a after => .ok (out a after) (leave st after)
    | .error e after => .error e (leave st after), fun e st' hres => ?_, fun s hs => ?_⟩
  · cases r with
    | ok a after => cases hres
    | error e' after =>
      obtain ⟨rfl, -⟩ := EStateM.Result.error.inj hres
      exact hX _ _ rfl
  · -- the way back takes along the session that the reports have left, also where they stop it
    have hx := hr s (by rwa [h.sessionOf_enter])
    rw [EndsAs] at *
    rw [Step.elsewhere, h.enter st s hs]
    cases heq : reportAll ds s with
    | error e s' =>
      rw [heq] at hx
      obtain ⟨after, hafter, hend⟩ := hx
      refine ⟨leave (putSession s st) after, by rw [hafter], ?_⟩
      have hleave := h.leave st after s (sessionOf after) hs
      rw [HasSession.putSession_sessionOf] at hleave
      rw [hleave, HasSession.sessionOf_putSession, hend]
    | ok u s' =>
      rw [heq] at hx
      change x _ = _ at hx
      rw [hx]
      cases r with
      | ok a after =>
        change EStateM.Result.ok (out a _) (leave _ _) = _
        rw [h.out, h.leave st after s s' hs]
        rfl
      | error e after =>
        change EStateM.Result.error e (leave _ _) = _
        rw [h.leave st after s s' hs]
        rfl

/-! ### Composed programs -/

/-- Is a relation of states one that programs can be said to keep, whatever they report? -/
structure Frame (Q : σ → σ → Prop) : Prop where
  refl (st : σ) : Q st st
  trans {st mid after : σ} : Q st mid → Q mid after → Q st after
  session (st : σ) (s : Session) : Q st (putSession s st)

/-- **Is a program put together from steps that leave the session alone, look at it no more than
they may, or report?** The others change the state as a relation allows. Elsewhere another relation
may hold, if what it says there is enough back here; so may one that speaks of what a change of the
state gives, of all that comes behind the change. -/
inductive Composed (F : Session → Session → Prop) :
    (Q : σ → σ → Prop) → {α : Type} → Step σ α → Prop
  | pure {Q : σ → σ → Prop} {α : Type} (a : α) : Composed F Q (pure a)
  | bind {Q : σ → σ → Prop} {α β : Type} {x : Step σ α} {f : α → Step σ β} (hx : Composed F Q x)
      (hf : ∀ a, Composed F Q (f a)) : Composed F Q (x >>= f)
  | look {Q : σ → σ → Prop} {α : Type} {f : σ → Step σ α}
      (hblind : ∀ st s, F (sessionOf st) s → f (putSession s st) = f st)
      (hf : ∀ st, Composed F Q (f st)) : Composed F Q (get >>= f)
  | modifyGet {Q : σ → σ → Prop} {α : Type} {f : σ → α × σ}
      (hblind : ∀ st s, f (putSession s st) = ((f st).1, putSession s (f st).2))
      (hQ : ∀ st, Q st (f st).2) : Composed F Q (modifyGet f)
  | report {Q : σ → σ → Prop} (d : Diagnostic) :
      Composed F Q (Step.onPart sessionOf putSession (Verilog.report d) : Step σ Unit)
  | elsewhere {Q R : σ → σ → Prop} {α β : Type} {enter : σ → σ} {leave : σ → σ → σ}
      {out : α → σ → β} {x : Step σ α} (h : Carries F enter leave out) (hR : Frame R)
      (hx : Composed F R x) (hQ : ∀ st after, R (enter st) after → Q st (leave st after)) :
      Composed F Q (elsewhere enter leave out x)
  | told {Q : σ → σ → Prop} {α β : Type} {R : α → σ → σ → Prop} {f : σ → α × σ} {g : α → Step σ β}
      (hblind : ∀ st s, f (putSession s st) = ((f st).1, putSession s (f st).2))
      (hR : ∀ a, Frame (R a)) (hg : ∀ a, Composed F (R a) (g a))
      (hQ : ∀ st after, R (f st).1 (f st).2 after → Q st after) :
      Composed F Q (modifyGet f >>= g)

namespace Composed

/-- A composed program keeps what is implied. -/
theorem mono {R : σ → σ → Prop} (hx : Composed F R x) (h : ∀ st after, R st after → Q st after) :
    Composed F Q x := by
  induction hx with
  | pure a => exact .pure a
  | bind _ _ ihx ihf => exact .bind (ihx h) fun a => ihf a h
  | look hblind _ ih => exact .look hblind fun st => ih st h
  | modifyGet hblind hR => exact .modifyGet hblind fun st => h _ _ (hR st)
  | report d => exact .report d
  | elsewhere hc hR hx hQ => exact .elsewhere hc hR hx fun st after hin => h _ _ (hQ st after hin)
  | told hblind hR hg hQ => exact .told hblind hR hg fun st after hin => h _ _ (hQ st after hin)

theorem map (g : α → β) (hx : Composed F Q x) : Composed F Q (g <$> x) := by
  rw [map_eq_pure_bind]
  exact hx.bind fun _ => .pure _

theorem modify {f : σ → σ} (hblind : ∀ st s, f (putSession s st) = putSession s (f st))
    (hQ : ∀ st, Q st (f st)) : Composed F Q (modify f) :=
  .modifyGet (fun st s => by rw [hblind]) hQ

theorem forM {f : α → Step σ PUnit} {xs : List α} (hf : ∀ a ∈ xs, Composed F Q (f a)) :
    Composed F Q (xs.forM f) := by
  induction xs with
  | nil => exact .pure _
  | cons a xs ih =>
    exact (hf a List.mem_cons_self).bind fun _ => ih fun b hb => hf b (List.mem_cons_of_mem _ hb)

theorem foldlM {f : β → α → Step σ β} {xs : List α} (hf : ∀ b, ∀ a ∈ xs, Composed F Q (f b a))
    (b : β) : Composed F Q (xs.foldlM f b) := by
  induction xs generalizing b with
  | nil => exact .pure _
  | cons a xs ih =>
    rw [List.foldlM_cons]
    exact (hf b a List.mem_cons_self).bind fun c =>
      ih (fun d e he => hf d e (List.mem_cons_of_mem _ he)) c

theorem forIn {f : α → Step σ PUnit} {xs : List α} (hf : ∀ a, Composed F Q (f a)) :
    Composed F Q (forIn xs PUnit.unit fun a _ => do f a; return .yield PUnit.unit) := by
  induction xs with
  | nil => exact .pure _
  | cons a xs ih =>
    rw [List.forIn_cons, bind_assoc]
    exact (hf a).bind fun _ => by simpa using ih

/-- **A composed program does nothing with the session but report**, and does not fail otherwise. -/
theorem reports (hF : Alike F) (hx : Composed F Q x) : Reports F (fun _ => False) x := by
  induction hx with
  | pure a => exact .pure a
  | bind _ _ ihx ihf => exact ihx.bind hF ihf
  | look hblind _ ih => exact .look hblind ih
  | modifyGet hblind _ => exact .modifyGet hblind
  | report d => exact .report d
  | elsewhere h _ _ _ ih => exact ih.elsewhere h
  | told hblind _ _ _ ih => exact (Reports.modifyGet hblind).bind hF ih

/-- In a run that does not stop at errors a composed program ends with a result, and the run is such
a one afterwards. -/
theorem succeeds (hF : Alike F) (hrefl : ∀ s, F s s) (hx : Composed F Q x) {st : σ}
    (hst : (sessionOf st).config.failFast = false) :
    ∃ a after, x st = .ok a after ∧ (sessionOf after).config.failFast = false := by
  obtain ⟨ds, r, hX, hr⟩ := hx.reports hF st
  have hend := hr (sessionOf st) (hrefl _)
  rw [EndsAs, reportAll_of_lenient hst, HasSession.putSession_sessionOf] at hend
  cases r with
  | error e after => exact absurd (hX e after rfl) id
  | ok a after => exact ⟨a, _, hend, by simpa using hst⟩

/-- **What all steps keep a composed program keeps**, however it ends. -/
theorem keeps (hF : Frame Q) (hx : Composed F Q x) (st : σ) : Q st (Ending.state (x st)) := by
  induction hx generalizing st with
  | pure a => exact hF.refl st
  -- what is kept up to a failure is kept; behind a result the relation goes on from there
  | @bind Q α β x f _ _ ihx ihf =>
    have hmid := ihx hF st
    rw [bind_eq]
    cases heq : x st with
    | error e after =>
      rw [heq] at hmid
      exact hmid
    | ok a mid =>
      rw [heq] at hmid
      exact hF.trans hmid (ihf a hF mid)
  | look _ _ ih => exact ih st hF st
  | modifyGet _ hQ => exact hQ st
  | report d =>
    rw [Step.onPart]
    cases Verilog.report d (sessionOf st) <;> exact hF.session st _
  | @elsewhere Q R α β enter leave out x _ hR _ hQ ih =>
    have hin := ih hR (enter st)
    rw [Step.elsewhere]
    cases heq : x (enter st) <;>
    · rw [heq] at hin
      exact hQ st _ hin
  | @told Q α β R f g _ hR _ hQ ih => exact hQ st _ (ih _ (hR _) (f st).2)

/-- The same of a run that ends with a result. -/
theorem keeps_of_ok (hF : Frame Q) (hx : Composed F Q x) {st after : σ} {a : α}
    (h : x st = .ok a after) : Q st after := by
  have hkept := hx.keeps hF st
  rw [h] at hkept
  exact hkept

end Composed

end Step

end Verilog
