import Verilog.Preprocess.Cause
import Verilog.Proofs.Text.Unmarked
import Verilog.Session

/-!
# Sessions without the delimiter of marks

What a step does is followed from its end to its start or the other way, one step after the other
(`Step.bind_of_ok`, `Step.exists_of_bind`).

Reporting may write to a file, and that file may be included later on. So whether the files of a
session are free of the delimiter of marks is not settled once and for all: it is kept by every
report whose text is free of it, along with the messages that wait to be written.
-/

namespace Verilog

/-! ### Steps one after the other -/

namespace Step

variable {σ α β : Type} {x : Step σ α} {f : α → Step σ β} {st mid after : σ} {a : α} {b : β}

theorem bind_eq (x : Step σ α) (f : α → Step σ β) (st : σ) :
    (x >>= f) st = match x st with
      | .ok a mid => f a mid
      | .error e after => .error e after := by
  change EStateM.bind x f st = _
  rw [EStateM.bind]
  cases x st <;> rfl

/-- The next step starts where a step that comes to an end has led. -/
theorem bind_of_ok (h : x st = .ok a mid) : (x >>= f) st = f a mid := by
  rw [bind_eq, h]

/-- What looks at the state goes on from it. -/
theorem bind_get (f : σ → Step σ β) : ((get : Step σ σ) >>= f) st = f st st := rfl

/-- Two steps that come to an end have done so one after the other. -/
theorem exists_of_bind (h : (x >>= f) st = .ok b after) :
    ∃ a mid, x st = .ok a mid ∧ f a mid = .ok b after := by
  rw [bind_eq] at h
  cases hx : x st with
  | ok a mid =>
    rw [hx] at h
    exact ⟨a, mid, rfl, h⟩
  | error e mid =>
    rw [hx] at h
    cases h

/-- Does a step come to an end, and is it one that passes a test? -/
def endsIn (x : Step σ α) (test : α → σ → Bool) (st : σ) : Bool :=
  match x st with
  | .ok a mid => test a mid
  | .error _ _ => false

theorem exists_of_endsIn {test : α → σ → Bool} (h : x.endsIn test st = true) :
    ∃ a mid, x st = .ok a mid ∧ test a mid = true := by
  rw [endsIn] at h
  split at h
  · exact ⟨_, _, ‹_›, h⟩
  · cases h

end Step

/-! ### Files and sessions without the delimiter -/

namespace FileStore

/-- Is the byte of the delimiter in no file? -/
def Unmarked (s : FileStore) : Prop :=
  ∀ loc content, (loc, FileEntry.file content) ∈ s.entries → UnmarkedBytes content

variable {s t : FileStore} {loc : FileLocation} {e : FileEntry} {content : ByteArray}

theorem Unmarked.find (hs : s.Unmarked) (h : s.find? loc = some (.file content)) :
    UnmarkedBytes content := by
  rw [find?] at h
  split at h
  · simp at h
  · obtain ⟨⟨loc', e⟩, he, heq⟩ := Option.map_eq_some_iff.mp h
    obtain rfl : e = .file content := heq
    exact hs loc' content (List.mem_of_find?_eq_some he)

/-- **The text of a file is unmarked.** -/
theorem Unmarked.text {path text : String} (hs : s.Unmarked) (h : s.text? path = some text) :
    Verilog.Unmarked text.toList := by
  obtain ⟨b, hb, ht⟩ := Option.bind_eq_some_iff.mp h
  rw [bytes?] at hb
  split at hb
  · rename_i content hc
    obtain rfl := Option.some.inj hb
    obtain ⟨loc, -, hloc⟩ := Option.bind_eq_some_iff.mp hc
    exact unmarked_of_fromUTF8? (hs.find hloc) ht
  · simp at hb

theorem Unmarked.put (hs : s.Unmarked) (he : ∀ content, e = .file content → UnmarkedBytes content) :
    (s.put loc e).Unmarked := by
  intro loc' content h
  rw [FileStore.put] at h
  split at h
  · obtain ⟨x, hx, heq⟩ := List.mem_map.mp h
    split at heq
    · exact he content (Prod.mk.inj heq).2
    · exact hs loc' content (heq ▸ hx)
  · rcases List.mem_append.mp h with h | h
    · exact hs loc' content h
    · exact he content (Prod.mk.inj (List.mem_singleton.mp h)).2.symm

theorem Unmarked.makeDirectory (hs : s.Unmarked) (loc : FileLocation) :
    (s.makeDirectory loc).Unmarked := by
  rw [FileStore.makeDirectory]
  split
  · exact hs
  · exact hs.put (by simp)

theorem Unmarked.makeWay (hs : s.Unmarked) (loc : FileLocation) (pieces : List (List Char)) :
    (s.makeWay loc pieces).1.Unmarked := by
  induction pieces generalizing s loc with
  | nil => exact hs
  | cons piece more ih => exact ih (hs.makeDirectory _) _

/-- Putting in a file without the delimiter. -/
theorem Unmarked.insert (hs : s.Unmarked) (path : String) (hc : UnmarkedBytes content) :
    (s.insert path content).Unmarked :=
  (hs.makeWay _ _).put fun _ h => FileEntry.file.inj h ▸ hc

theorem unmarked_empty : empty.Unmarked := by simp [FileStore.Unmarked, empty]

theorem Unmarked.openAppend {path : String} (hs : s.Unmarked)
    (h : s.openAppend path = some (loc, t)) : t.Unmarked := by
  rw [FileStore.openAppend] at h
  split at h
  · simp at h
  · split at h
    · obtain ⟨-, rfl⟩ := Prod.mk.inj (Option.some.inj h)
      exact hs.put fun content hc => by
        obtain rfl := FileEntry.file.inj hc
        exact Array.not_mem_empty _
    · simp at h
    · obtain ⟨-, rfl⟩ := Prod.mk.inj (Option.some.inj h)
      exact hs

theorem Unmarked.append {text : String} (hs : s.Unmarked) (ht : Verilog.Unmarked text.toList)
    (h : s.append loc text = some t) : t.Unmarked := by
  rw [FileStore.append] at h
  split at h
  · rename_i content hc
    obtain rfl := Option.some.inj h
    refine hs.put fun content' hc' => ?_
    obtain rfl := FileEntry.file.inj hc'
    exact (hs.find hc).append ((unmarkedBytes_toUTF8 text).mpr ht)
  · simp at h

end FileStore

namespace MessageLog

/-- Is the delimiter in no message that waits? -/
def Unmarked (log : MessageLog) : Prop := ∀ m ∈ log.queue, Verilog.Unmarked m.toList

variable {l l' : MessageLog} {files files' : FileStore} {handle : FileLocation}
  {message : String}

theorem unmarked_lineOf (h : Verilog.Unmarked message.toList) :
    Verilog.Unmarked (lineOf message).toList := by
  have hn : Verilog.Unmarked "\n".toList := by decide
  rw [lineOf]
  split
  · exact h
  · rw [String.toList_append, Verilog.Unmarked.append]
    exact ⟨h, hn⟩

theorem Unmarked.enqueue (hl : l.Unmarked) (h : Verilog.Unmarked message.toList) :
    (l.enqueue message).Unmarked := by
  rw [MessageLog.enqueue]
  split
  · exact hl
  · intro m hm
    rcases List.mem_append.mp hm with hm | hm
    · exact hl m (List.mem_of_mem_drop hm)
    · exact List.mem_singleton.mp hm ▸ h

theorem Unmarked.openFile (hl : l.Unmarked) (hf : files.Unmarked)
    (h : l.openFile files = some (handle, l', files')) : l'.Unmarked ∧ files'.Unmarked := by
  rw [MessageLog.openFile] at h
  split at h
  · obtain ⟨-, h⟩ := Prod.mk.inj (Option.some.inj h)
    obtain ⟨rfl, rfl⟩ := Prod.mk.inj h
    exact ⟨hl, hf⟩
  · simp at h
  · obtain ⟨⟨loc, files''⟩, ho, heq⟩ := Option.map_eq_some_iff.mp h
    obtain ⟨-, heq⟩ := Prod.mk.inj heq
    obtain ⟨rfl, rfl⟩ := Prod.mk.inj heq
    exact ⟨hl, hf.openAppend ho⟩

theorem unmarked_writeAll (messages : List String) (hm : ∀ m ∈ messages, Verilog.Unmarked m.toList)
    (hf : files.Unmarked) :
    (∀ m ∈ (writeAll handle messages files).1, Verilog.Unmarked m.toList) ∧
      (writeAll handle messages files).2.Unmarked := by
  induction messages generalizing files with
  | nil => exact ⟨hm, hf⟩
  | cons message more ih =>
    rw [writeAll]
    split
    · rename_i files' h
      have hline := unmarked_lineOf (hm message List.mem_cons_self)
      exact ih (fun m h => hm m (List.mem_cons_of_mem _ h)) (hf.append hline h)
    · exact ⟨hm, hf⟩

theorem Unmarked.flushBound (hl : l.Unmarked) (hf : files.Unmarked) :
    (l.flushBound files).2.1.Unmarked ∧ (l.flushBound files).2.2.Unmarked := by
  rw [MessageLog.flushBound]
  split
  · exact ⟨hl, hf⟩
  · split
    · exact ⟨hl, hf⟩
    · rename_i h
      obtain ⟨hl, hf⟩ := hl.openFile hf h
      exact unmarked_writeAll _ hl hf

/-- **Logging a message** leaves the delimiter out of what waits and of the files. -/
theorem Unmarked.log (hl : l.Unmarked) (hf : files.Unmarked)
    (h : Verilog.Unmarked message.toList) :
    (l.log message files).2.1.Unmarked ∧ (l.log message files).2.2.Unmarked := by
  rw [MessageLog.log]
  split
  · exact ⟨hl.enqueue h, hf⟩
  · split
    · exact ⟨hl.enqueue h, hf⟩
    · rename_i ho
      obtain ⟨hl, hf⟩ := hl.openFile hf ho
      have hb := hl.flushBound hf
      split
      · rename_i heq
        rw [heq] at hb
        split
        · rename_i ha
          exact ⟨hb.1, hb.2.append (unmarked_lineOf h) ha⟩
        · exact ⟨hb.1.enqueue h, hb.2⟩
      · rename_i heq
        rw [heq] at hb
        exact ⟨hb.1.enqueue h, hb.2⟩

end MessageLog

/-! ### Diagnostics in words -/

theorem toString_string (s : String) : toString s = s := rfl

/-- **A diagnostic in words** is unmarked if what it quotes is. -/
theorem Diagnostic.unmarked_text {d : Diagnostic} (hm : Unmarked d.message.toList)
    (hp : ∀ p, d.place = some p → Unmarked p.file.toList)
    (hs : ∀ s ∈ d.suggestions, Unmarked s.toList) : Unmarked d.text.toList := by
  have ht (s : Severity) : Unmarked s.tag.toList := by cases s <;> decide
  have hc (k : DiagnosticKind) : Unmarked k.code.toList := by
    cases k <;> dsimp only [DiagnosticKind.code] <;> decide
  have hplace (p : FilePlace) (h : d.place = some p) :
      Unmarked s!"{p.file}:{p.line}:{p.column}: ".toList := by
    simp only [toString_string, String.toList_append, Unmarked.append, hp p h,
      Nat.toString_eq_repr, Nat.toList_repr, Unmarked.toDigits, true_and, and_true]
    decide
  have hhints : Unmarked (
      let hints := ", ".intercalate d.suggestions
      if d.suggestions.isEmpty then "" else s!" (Suggestions: {hints})").toList := by
    dsimp only
    split
    · decide
    · have := Unmarked.intercalate ", " (by decide) d.suggestions hs
      simp only [toString_string, String.toList_append, Unmarked.append, this, and_true]
      decide
  rw [Diagnostic.text]
  simp only [String.toList_append, Unmarked.append]
  refine ⟨⟨⟨?_, ?_⟩, hm⟩, hhints⟩
  · simp only [toString_string, ht, hc, and_true]
    decide
  · split
    · exact hplace _ ‹_›
    · decide

namespace DirectiveFault

/-- The texts that a fault quotes. -/
def quoted : DirectiveFault → List String
  | malformed text | reservedName text | redefinition text | undefUnknown text | unknownMacro text
  | recursion text | arity text _ _ | includeNotFound text | malformedTimescale text
  | unsupportedNetType text => [text]
  | includeCycle name path | includeNotText name path => [name, path]
  | elsifWithoutIf | elseWithoutIf | endifWithoutIf | unterminatedConditional | malformedLine
  | lineLevel _ => []

theorem unmarked_message {fault : DirectiveFault} (h : ∀ s ∈ fault.quoted, Unmarked s.toList) :
    Unmarked fault.message.toList := by
  cases fault <;> delta message <;> dsimp only <;>
    simp_all only [quoted, List.forall_mem_cons, toString_string, String.toList_append,
      Unmarked.append, Nat.toString_eq_repr, Nat.toList_repr, Unmarked.toDigits, and_true] <;>
    decide

theorem unmarked_suggestions (fault : DirectiveFault) :
    ∀ s ∈ fault.suggestions, Unmarked s.toList := by
  cases fault <;> dsimp only [suggestions] <;> decide

/-- **The diagnostic of a fault in words** is unmarked if the texts the fault quotes are, and the
name of the file it is in. -/
theorem unmarked_diagnostic {fault : DirectiveFault} {place : FilePlace}
    (h : ∀ s ∈ fault.quoted, Unmarked s.toList) (hp : Unmarked place.file.toList) :
    Unmarked (fault.diagnostic place).text.toList :=
  Diagnostic.unmarked_text (unmarked_message h)
    (fun p hplace => by obtain rfl := Option.some.inj hplace; exact hp) fault.unmarked_suggestions

end DirectiveFault

/-! ### Reports -/

/-- **A session that no delimiter of marks is in**: not in its files, nor in the messages that wait,
nor in the macros and directories of its configuration. -/
structure Session.Unmarked (s : Session) : Prop where
  files : s.files.Unmarked
  log : s.log.Unmarked
  defines : ∀ d ∈ s.config.defines.entries,
    Verilog.Unmarked d.1.toList ∧ Verilog.Unmarked d.2.toList
  includeDirs : ∀ dir ∈ s.config.includeDirs, Verilog.Unmarked dir.toList

theorem Session.Unmarked.add {s : Session} {d : Diagnostic} (hs : s.Unmarked)
    (hd : Verilog.Unmarked d.text.toList) : (s.add d).Unmarked :=
  have h := hs.log.log hs.files hd
  ⟨h.2, h.1, hs.defines, hs.includeDirs⟩

/-- What a report does, and the one failure it can end in. -/
theorem report_eq (d : Diagnostic) (s : Session) : report d s =
    if s.config.failFast && d.severity.isError then .error (.firstError d) (s.add d)
    else .ok () (s.add d) := by
  have hadd : (modify fun s => s.add d : Reporting Unit) s = .ok () (s.add d) := rfl
  have hc : (s.add d).config = s.config := rfl
  rw [report, Step.bind_of_ok hadd, Step.bind_get, hc]
  split <;> rfl

end Verilog
