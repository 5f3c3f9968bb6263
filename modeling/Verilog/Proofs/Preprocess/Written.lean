import Verilog.Preprocess.Run
import Verilog.Proofs.Location.Mapper
import Verilog.Proofs.Node.Graft
import Verilog.Proofs.Session

/-!
# What preprocessing writes

The text that comes out of preprocessing is a sequence of *stretches*: text as such, and what a
directive or a macro use gave, between the two marks of its node. Since a mark is opened and closed
by the same step, the stretches are nested by construction, and that marks nest is no fact to be
proved about them.

Of the steps of preprocessing only this much is needed: they write stretches, they do not bring the
delimiter of marks in, they leave alone what was said of the nodes and lines there are, and they
fail only where a run is to stop at the first error (`Preprocessing.Writes`). The steps are
programs, so this is stated once for each way in which programs are put together, and once for each
thing a program does.
-/

namespace Verilog

/-! ### Stretches -/

/-- A stretch of preprocessed text. -/
inductive Stretch where
  | text (s : List Char)
  /-- What the directive or macro use with a node gave. -/
  | region (node : NodeId) (inner : List Stretch)

namespace Stretch

mutual

/-- A stretch as it is written. -/
def written : Stretch → List Char
  | text s => s
  | region node inner => beginMark ++ writtenAll inner ++ endMark node

/-- Stretches as they are written one after the other. -/
def writtenAll : List Stretch → List Char
  | [] => []
  | w :: ws => w.written ++ writtenAll ws

end

mutual

/-- The marks of a stretch in the order in which they are written, each with the kind of token it is
meant to be. -/
def marks : Stretch → List (SourceKind × List Char)
  | text _ => []
  | region node inner =>
    (.preprocBegin, beginMark) :: marksAll inner ++ [(.preprocEnd, endMark node)]

/-- The marks of stretches in the order in which they are written. -/
def marksAll : List Stretch → List (SourceKind × List Char)
  | [] => []
  | w :: ws => w.marks ++ marksAll ws

end

mutual

/-- Is the delimiter nowhere but in marks, and are the nodes of the marks those of a table of so
many nodes? Regions are asked for only where marks are made at all. -/
def Sound (marking : Bool) (limit : Nat) : Stretch → Prop
  | text s => Unmarked s
  | region node inner => marking = true ∧ 0 < node ∧ node ≤ limit ∧ SoundAll marking limit inner

/-- `Sound` for each of a list of stretches. -/
def SoundAll (marking : Bool) (limit : Nat) : List Stretch → Prop
  | [] => True
  | w :: ws => w.Sound marking limit ∧ SoundAll marking limit ws

end

variable {marking : Bool} {limit more : Nat} {ws vs : List Stretch}

@[simp] theorem writtenAll_append : writtenAll (ws ++ vs) = writtenAll ws ++ writtenAll vs := by
  induction ws with
  | nil => rfl
  | cons w ws ih => simp [writtenAll, ih]

@[simp] theorem soundAll_append :
    SoundAll marking limit (ws ++ vs) ↔ SoundAll marking limit ws ∧ SoundAll marking limit vs := by
  induction ws with
  | nil => simp [SoundAll]
  | cons w ws ih => simp [SoundAll, ih, and_assoc]

mutual

theorem Sound.mono (hle : limit ≤ more) : {w : Stretch} → w.Sound marking limit →
    w.Sound marking more
  | text _, h => h
  | region _ _, ⟨hm, hpos, hlim, hin⟩ => ⟨hm, hpos, Nat.le_trans hlim hle, SoundAll.mono hle hin⟩

/-- More nodes do no harm. -/
theorem SoundAll.mono (hle : limit ≤ more) : {ws : List Stretch} → SoundAll marking limit ws →
    SoundAll marking more ws
  | [], _ => trivial
  | _ :: _, ⟨hw, hws⟩ => ⟨hw.mono hle, hws.mono hle⟩

end

/-- Where no marks are made the text is unmarked. -/
theorem SoundAll.unmarked : {ws : List Stretch} → SoundAll false limit ws →
    Unmarked (writtenAll ws)
  | [], _ => .nil
  | text _ :: _, ⟨hw, hws⟩ => Unmarked.append.mpr ⟨hw, hws.unmarked⟩
  | region _ _ :: _, ⟨hw, _⟩ => absurd hw.1 Bool.false_ne_true

end Stretch

open Stretch

/-! ### Marks are on one line -/

theorem newlines_beginMark : newlines beginMark = 0 := by decide

theorem newlines_endMark (node : NodeId) : newlines (endMark node) = 0 := by
  have hdigits : (Nat.toDigits 10 node).count '\n' = 0 := by
    refine List.count_eq_zero.mpr fun h => ?_
    exact absurd (Nat.isDigit_of_mem_toDigits (by decide) (by decide) h) (by decide)
  rw [endMark, newlines, List.count_append, List.count_append, hdigits]
  decide

/-! ### Macros and states without the delimiter -/

/-- Is the delimiter nowhere in a macro? -/
structure MacroDefinition.Unmarked (m : MacroDefinition) : Prop where
  name : Verilog.Unmarked m.name.toList
  body : ∀ t ∈ m.body, Verilog.Unmarked t.text.toList
  defaults : ∀ f ∈ m.formals.getD [], ∀ s, f.default = some s → Verilog.Unmarked s.toList

/-- Is the delimiter nowhere in the macros in force? -/
def MacroTable.Unmarked (t : MacroTable) : Prop := ∀ m ∈ t.macros, m.Unmarked

/-- Is the delimiter nowhere in what a state of preprocessing may still write? -/
structure PreprocessState.Unmarked (st : PreprocessState) : Prop where
  session : st.session.Unmarked
  macros : st.macros.Unmarked

/-- **What a step of preprocessing has done**: it wrote stretches, it added nodes, and it started
sections of the line map no earlier than so many lines ahead. -/
structure Wrote (ahead : Nat) (marking : Bool) (before after : PreprocessState) : Prop where
  state : after.Unmarked
  nodes : before.nodes.Extends after.nodes
  text : ∃ ws, after.text.toList = before.text.toList ++ writtenAll ws ∧
    SoundAll marking after.nodes.size ws ∧ after.line = before.line + newlines (writtenAll ws)
  /-- The lines up to there come from where they came from. -/
  lines : ∀ l < before.line + ahead, after.lines.origin l = before.lines.origin l
  sorted : before.lines.Sorted → after.lines.Sorted

namespace Wrote

variable {ahead : Nat} {marking : Bool} {st before mid after : PreprocessState}

theorem line_le (h : Wrote ahead marking before after) : before.line ≤ after.line := by
  obtain ⟨ws, -, -, hline⟩ := h.text
  omega

theorem trans (h : Wrote ahead marking before mid) (h' : Wrote ahead marking mid after) :
    Wrote ahead marking before after := by
  obtain ⟨ws, ht, hs, hline⟩ := h.text
  obtain ⟨vs, ht', hs', hline'⟩ := h'.text
  refine ⟨h'.state, h.nodes.trans h'.nodes, ⟨ws ++ vs, ?_, ?_, ?_⟩, fun l hl => ?_,
    fun hm => h'.sorted (h.sorted hm)⟩
  · rw [ht', ht, writtenAll_append, List.append_assoc]
  · exact soundAll_append.mpr ⟨hs.mono h'.nodes.size, hs'⟩
  · rw [hline', hline, writtenAll_append, newlines_append, Nat.add_assoc]
  · rw [h'.lines l (Nat.lt_of_lt_of_le hl (Nat.add_le_add_right h.line_le ahead)), h.lines l hl]

/-- Sections that are started further ahead are started ahead. -/
theorem mono {less : Nat} (h : Wrote ahead marking before after) (hle : less ≤ ahead) :
    Wrote less marking before after :=
  ⟨h.state, h.nodes, h.text,
    fun l hl => h.lines l (Nat.lt_of_lt_of_le hl (Nat.add_le_add_left hle _)), h.sorted⟩

/-- A step that only adds nodes, if it does anything to what a run gives. -/
theorem of_text_eq (hst : after.Unmarked) (hnodes : before.nodes.Extends after.nodes)
    (ht : after.text = before.text) (hline : after.line = before.line)
    (hlines : after.lines = before.lines) : Wrote ahead marking before after :=
  ⟨hst, hnodes, ⟨[], by simp [ht, writtenAll], trivial, by simp [hline, writtenAll, newlines]⟩,
    fun l _ => by rw [hlines], fun h => hlines ▸ h⟩

/-- A step that leaves all that a run gives as it was. -/
theorem of_eq (hst : after.Unmarked) (hnodes : after.nodes = before.nodes)
    (ht : after.text = before.text) (hline : after.line = before.line)
    (hlines : after.lines = before.lines) : Wrote ahead marking before after :=
  of_text_eq hst (hnodes ▸ .refl _) ht hline hlines

theorem refl (hst : st.Unmarked) : Wrote ahead marking st st := of_eq hst rfl rfl rfl rfl

end Wrote

/-! ### Programs -/

namespace Preprocessing

variable {α β : Type} {ahead : Nat} {marking : Bool} {x : Preprocessing α} {P Q : α → Prop}
  {R : β → Prop} {st : PreprocessState}

/-- What is known of how a program ends: it wrote stretches and gave a result as asked, or a run is
to stop at the first error. -/
def Ends (ahead : Nat) (marking : Bool) (before : PreprocessState) (Q : α → Prop) :
    EStateM.Result Failure PreprocessState α → Prop
  | .ok a after => Wrote ahead marking before after ∧ Q a
  | .error e _ => ∃ d, e = .firstError d

/-- **What is known of a program that preprocesses**, started where the delimiter is nowhere. -/
def WritesFrom (ahead : Nat) (marking : Bool) (x : Preprocessing α) (Q : α → Prop) : Prop :=
  ∀ st, st.Unmarked → Ends ahead marking st Q (x st)

/-- `WritesFrom` for programs that say nothing of the line they begin on. -/
abbrev Writes (marking : Bool) (x : Preprocessing α) (Q : α → Prop) : Prop :=
  WritesFrom 1 marking x Q

theorem Ends.bind {f : α → Preprocessing β} (hx : Ends ahead marking st Q (x st))
    (hf : ∀ a, Q a → WritesFrom ahead marking (f a) R) :
    Ends ahead marking st R ((x >>= f) st) := by
  rw [Step.bind_eq]
  cases heq : x st with
  | error e after =>
    rw [heq] at hx
    exact hx
  | ok a mid =>
    rw [heq] at hx
    have hf := hf a hx.2 mid hx.1.state
    change Ends ahead marking st R (f a mid)
    cases heq' : f a mid with
    | error e after =>
      rw [heq'] at hf
      exact hf
    | ok b after =>
      rw [heq'] at hf
      exact ⟨hx.1.trans hf.1, hf.2⟩

namespace WritesFrom

theorem pure {a : α} (h : Q a) : WritesFrom ahead marking (pure a) Q :=
  fun _ hst => ⟨.refl hst, h⟩

theorem mono (hx : WritesFrom ahead marking x P) (h : ∀ a, P a → Q a) :
    WritesFrom ahead marking x Q := by
  intro st hst
  have hx := hx st hst
  cases heq : x st with
  | ok a after =>
    rw [heq] at hx
    exact ⟨hx.1, h a hx.2⟩
  | error e after =>
    rw [heq] at hx
    exact hx

/-- A program that starts its sections further ahead starts them ahead. -/
theorem nearer {less : Nat} (hx : WritesFrom ahead marking x Q) (hle : less ≤ ahead) :
    WritesFrom less marking x Q := by
  intro st hst
  have hx := hx st hst
  cases heq : x st with
  | ok a after =>
    rw [heq] at hx
    exact ⟨hx.1.mono hle, hx.2⟩
  | error e after =>
    rw [heq] at hx
    exact hx

theorem bind {f : α → Preprocessing β} (hx : WritesFrom ahead marking x Q)
    (hf : ∀ a, Q a → WritesFrom ahead marking (f a) R) : WritesFrom ahead marking (x >>= f) R :=
  fun st hst => (hx st hst).bind hf

theorem map {f : α → β} (hx : WritesFrom ahead marking x Q) (hf : ∀ a, Q a → R (f a)) :
    WritesFrom ahead marking (f <$> x) R := by
  rw [← bind_pure_comp]
  exact hx.bind fun a ha => .pure (hf a ha)

theorem get : WritesFrom ahead marking get PreprocessState.Unmarked :=
  fun _ hst => ⟨.refl hst, hst⟩

/-- A program that first looks at the state it is started in. -/
theorem get_bind {f : PreprocessState → Preprocessing α}
    (h : ∀ st, st.Unmarked → Ends ahead marking st Q (f st st)) :
    WritesFrom ahead marking (MonadState.get >>= f) Q := h

theorem modify {f : PreprocessState → PreprocessState}
    (h : ∀ st, st.Unmarked → Wrote ahead marking st (f st)) :
    WritesFrom ahead marking (modify f) fun _ => True := fun st hst => ⟨h st hst, trivial⟩

theorem forM {f : α → Preprocessing PUnit} {xs : List α}
    (h : ∀ a ∈ xs, WritesFrom ahead marking (f a) fun _ => True) :
    WritesFrom ahead marking (xs.forM f) fun _ => True := by
  induction xs with
  | nil => exact .pure trivial
  | cons a xs ih =>
    exact (h a List.mem_cons_self).bind fun _ _ => ih fun b hb => h b (List.mem_cons_of_mem _ hb)

theorem foldlM {f : β → α → Preprocessing β} {xs : List α} {b : β} (hb : R b)
    (h : ∀ a ∈ xs, ∀ b, R b → WritesFrom ahead marking (f b a) R) :
    WritesFrom ahead marking (xs.foldlM f b) R := by
  induction xs generalizing b with
  | nil => exact .pure hb
  | cons a xs ih =>
    rw [List.foldlM_cons]
    exact (h a List.mem_cons_self b hb).bind fun b hb =>
      ih hb fun c hc => h c (List.mem_cons_of_mem _ hc)

end WritesFrom

/-! ### What programs do -/

theorem wrote_emit {s : String} (hs : Unmarked s.toList) (hst : st.Unmarked) :
    Wrote ahead marking st
      { st with line := st.line + newlines s.toList, text := st.text ++ s } := by
  refine ⟨⟨hst.session, hst.macros⟩, .refl _, ⟨[.text s.toList], ?_, ⟨hs, trivial⟩, ?_⟩,
    fun _ _ => rfl, id⟩
  · simp [writtenAll, written]
  · simp [writtenAll, written]

theorem writes_emit {s : String} (hs : Unmarked s.toList) :
    WritesFrom ahead marking (emit s) fun _ => True := .modify fun _ hst => wrote_emit hs hst

theorem writes_emitNewlines (n : Nat) : WritesFrom ahead marking (emitNewlines n) fun _ => True :=
  writes_emit (by simpa using Unmarked.replicate_newline n)

/-- After a line feed the current line is one ahead of what it was. -/
theorem writes_newline_bind {x : Preprocessing α} (hx : WritesFrom 0 marking x Q) :
    Writes marking (emit "\n" >>= fun _ => x) Q := by
  intro st hst
  have hline : Wrote 1 marking st
      { st with line := st.line + newlines "\n".toList, text := st.text ++ "\n" } :=
    wrote_emit (by decide) hst
  have hx := hx _ hline.state
  change Ends 1 marking st Q (x _)
  revert hx
  generalize x _ = r
  intro hx
  cases r with
  | error e after => exact hx
  | ok a after =>
    obtain ⟨hw, ha⟩ := hx
    obtain ⟨ws, ht, hs, hws⟩ := hw.text
    have hfeed : Unmarked ['\n'] := by decide
    refine ⟨⟨hw.state, hw.nodes, ⟨.text ['\n'] :: ws, ?_, ⟨hfeed, hs⟩, ?_⟩, hw.lines,
      hw.sorted⟩, ha⟩
    · simp [ht, writtenAll, written]
    · rw [hws, writtenAll, newlines_append, ← Nat.add_assoc]
      rfl

theorem writes_report {d : Diagnostic} (hd : Unmarked d.text.toList) :
    WritesFrom ahead marking (report d) fun _ => True := by
  intro st hst
  have hadd : { st with session := st.session.add d }.Unmarked :=
    ⟨hst.session.add hd, hst.macros⟩
  rw [report, Step.onPart, Verilog.report_eq]
  by_cases h : st.session.config.failFast && d.severity.isError
  · simp only [h, if_true]
    exact ⟨d, rfl⟩
  · simp only [h]
    exact ⟨.of_eq hadd rfl rfl rfl rfl, trivial⟩

theorem writes_modifyMacros {f : MacroTable → MacroTable} (h : ∀ t, t.Unmarked → (f t).Unmarked) :
    WritesFrom ahead marking (modifyMacros f) fun _ => True :=
  .modify fun _ hst => .of_eq ⟨hst.session, h _ hst.macros⟩ rfl rfl rfl rfl

theorem writes_changeSettings (f : DirectiveState → DirectiveState) :
    WritesFrom ahead marking (changeSettings f) fun _ => True :=
  .modify fun _ hst => .of_eq ⟨hst.session, hst.macros⟩ rfl rfl rfl rfl

/-- A section may be started so many lines ahead. -/
theorem ends_startSection {s : LineSection} (hst : st.Unmarked) (hs : st.line + ahead ≤ s.start) :
    Ends ahead marking st (fun _ => True) (startSection s st) :=
  ⟨⟨⟨hst.session, hst.macros⟩, .refl _, ⟨[], by simp [writtenAll], trivial, rfl⟩,
    fun _ hl => LineMap.origin_push_of_lt (Nat.lt_of_lt_of_le hl hs), fun h => h.push s⟩, trivial⟩

theorem writes_modifyIncludes (f : Array IncludeEdge → Array IncludeEdge) :
    WritesFrom ahead marking (modify fun st => { st with includes := f st.includes })
      fun _ => True :=
  .modify fun _ hst => .of_eq ⟨hst.session, hst.macros⟩ rfl rfl rfl rfl

/-- **A program run apart** leaves the text alone, and gives the text it would have written. -/
theorem writes_apart {x : Preprocessing Unit} (hx : Writes false x fun _ => True) (name : String) :
    Writes marking (apart x name) fun s => Unmarked s.toList := by
  intro st hst
  have hx := hx { st with text := "", expanding := name :: st.expanding } ⟨hst.session, hst.macros⟩
  rw [apart]
  cases heq : x { st with text := "", expanding := name :: st.expanding } with
  | error e after =>
    rw [heq] at hx
    exact hx
  | ok _ after =>
    rw [heq] at hx
    obtain ⟨⟨hafter, hnodes, ⟨ws, ht, hs, -⟩, hlines, hsorted⟩, -⟩ := hx
    refine ⟨⟨⟨hafter.session, hafter.macros⟩, hnodes,
      ⟨[], by simp [writtenAll], trivial, rfl⟩, hlines, hsorted⟩, ?_⟩
    change Unmarked after.text.toList
    rw [ht]
    exact hs.unmarked

theorem writes_inside {x : Preprocessing Unit} (hx : WritesFrom ahead marking x fun _ => True)
    (path : String) : WritesFrom ahead marking (inside path x) fun _ => True := by
  intro st hst
  have hx := hx { st with including := path :: st.including } ⟨hst.session, hst.macros⟩
  rw [inside]
  cases heq : x { st with including := path :: st.including } with
  | error e after =>
    rw [heq] at hx
    exact hx
  | ok _ after =>
    rw [heq] at hx
    obtain ⟨⟨hafter, hnodes, ht, hlines, hsorted⟩, -⟩ := hx
    exact ⟨⟨⟨hafter.session, hafter.macros⟩, hnodes, ht, hlines, hsorted⟩, trivial⟩

end Preprocessing

end Verilog
