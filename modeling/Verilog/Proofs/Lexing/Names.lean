import Verilog.Proofs.Lexing.InStep

/-!
# What hides a name

Where one lexicon does not find a name that the other one finds, a token of it covers the place
where the name begins. To the lexicon of directives this is a number or a name that begins before
(`DirectiveKind.kind_of_covers`). To the lexicon of source text it is a number with a quote, a
system identifier or a mark, or else a name with a dollar sign in it
(`SourceKind.kind_of_covers`): in front of the hidden name the lexicon of directives has left off,
and it never leaves off between two letters, digits or underscores.
-/

namespace Verilog

open Pattern Lexicon

/-! ### The kinds of names -/

namespace Lexicon

variable {κ : Type} {lexicon : Lexicon κ} {p : Nat} {s : List Char} {x : Piece κ}

/-- **Where a piece stands**: it is cut off what is left of the text there. -/
theorem cutsOff_of_mem_piecesFrom (hx : x ∈ lexicon.piecesFrom p s) :
    p ≤ x.start ∧ ∃ r, lexicon.CutsOff (s.drop (x.start - p)) [(x.kind, x.text)] r := by
  induction hn : s.length using Nat.strong_induction_on generalizing p s with
  | _ n ih =>
    cases s with
    | nil => exact absurd hx List.not_mem_nil
    | cons c s =>
      obtain ⟨kind, w, r, hcut⟩ := lexicon.exists_cutsOff c s
      have heq : c :: s = (c :: w) ++ r := by simpa using hcut.text_eq
      have hlen := congrArg List.length heq
      simp only [List.cons_append, List.length_cons, List.length_append] at hlen hn
      rw [hcut.piecesFrom_eq, List.mem_append] at hx
      rcases hx with hx | hx
      · obtain rfl : x = ⟨p, kind, c :: w⟩ := by simpa [laid] using hx
        exact ⟨Nat.le_refl p, r, by simpa using hcut⟩
      · obtain ⟨hle, t, hcut'⟩ := ih r.length (by omega) hx rfl
        have hflat : ([(kind, c :: w)].flatMap (·.2)).length = (c :: w).length := by simp
        rw [hflat] at hle hcut'
        refine ⟨(Nat.le_add_right _ _).trans hle, t, ?_⟩
        rwa [heq, show x.start - p = (c :: w).length + (x.start - (p + (c :: w).length)) by omega,
          List.drop_length_add_append]

/-- A name begins what is left of the text. -/
theorem exists_drop_eq_cons (hx : x ∈ lexicon.piecesFrom p s) (hname : x.IsName) :
    ∃ c t, s.drop (x.start - p) = c :: t ∧ isNameStart c = true := by
  obtain ⟨-, r, hcut⟩ := cutsOff_of_mem_piecesFrom hx
  have hdrop : s.drop (x.start - p) = x.text ++ r := by simpa using hcut.text_eq
  cases hw : x.text with
  | nil => rw [Piece.IsName, hw] at hname; cases hname
  | cons c w =>
    rw [Piece.IsName, hw] at hname
    exact ⟨c, w ++ r, by rw [hdrop, hw]; rfl, hname⟩

end Lexicon

/-! ### What may stand before a name -/

/-- A letter, a digit or an underscore. -/
def isLetterOrDigit (c : Char) : Bool := c.isAlphanum || c == '_'

theorem isLetterOrDigit_of_isNameStart {c : Char} (hc : isNameStart c = true) :
    isLetterOrDigit c = true := by
  rw [isNameStart, Bool.or_eq_true] at hc
  rw [isLetterOrDigit, Bool.or_eq_true]
  exact hc.imp_left fun h => by simp [Char.isAlphanum, h]

theorem isBlank_of_isNameStart {c : Char} (hc : isNameStart c = true) : isBlank c = false := by
  rw [isNameStart, Bool.or_eq_true, beq_iff_eq] at hc
  rcases hc with hc | rfl
  · have hrange : 65 ≤ c.toNat ∧ c.toNat ≤ 122 := toNat_of_isAlpha hc
    simp only [isBlank, Bool.or_eq_false_iff, Bool.and_eq_false_iff, decide_eq_false_iff_not,
      beq_eq_false_iff_ne]
    omega
  · rfl

namespace Pattern

/-- Does a pattern leave off before a name only behind a character that is no part of names? -/
def PartsNames (a : Pattern) : Prop :=
  ∀ s w r, a.split s = some (w, r) → r.head?.any isNameStart = true →
    w.getLast?.any isLetterOrDigit = false

/-- Does a pattern never leave off before a name? -/
def TakesNames (a : Pattern) : Prop :=
  ∀ s w r, a.split s = some (w, r) → r.head?.any isNameStart = false

variable {a b : Pattern} {p : Char → Bool}

theorem takesNames_run (hp : ∀ c, isNameStart c = true → p c = true) : (run p).TakesNames := by
  intro s w r h
  simp only [split, Option.some.injEq, Prod.mk.injEq] at h
  obtain ⟨-, rfl⟩ := h
  by_contra hname
  cases hr : s.dropWhile p with
  | nil => simp [hr] at hname
  | cons c t =>
    have hc : isNameStart c = true := by simpa [hr] using hname
    have := List.head?_dropWhile_not p s
    rw [hr] at this
    simp [hp c hc] at this

theorem takesNames_commentRest : (many commentCharacter).TakesNames := by
  intro s w r h
  obtain ⟨x, r', hsplit, -, -, hr⟩ := exists_commentRest s
  obtain ⟨-, rfl⟩ := Prod.mk.inj (Option.some.inj (h.symm.trans hsplit))
  rcases hr with rfl | ⟨t, rfl⟩ | rfl | ⟨t, rfl⟩ | ⟨t, rfl⟩ <;> rfl

theorem TakesNames.seq (hb : b.TakesNames) : (seq a b).TakesNames := by
  intro s w r h
  obtain ⟨_, _, _, -, h, -⟩ := exists_of_split_seq h
  exact hb _ _ _ h

theorem TakesNames.parts (ha : a.TakesNames) : a.PartsNames := by
  intro s w r h hr
  rw [ha _ _ _ h] at hr
  cases hr

theorem partsNames_text {t : List Char} (ht : t.getLast?.any isLetterOrDigit = false) :
    (text t).PartsNames := by
  intro s w r h _
  rwa [eq_of_split_text h]

theorem partsNames_blanks : (run1 isSpace).PartsNames := by
  intro s w r h _
  cases hw : w.getLast? with
  | none => rfl
  | some c =>
    have hspace := (forall_of_split_run1 h).2 c (List.mem_of_getLast? hw)
    have hcases : c = ' ' ∨ c = '\t' ∨ c = '\r' ∨ c = '\x0c' := by
      simpa [isSpace, or_assoc] using hspace
    rcases hcases with rfl | rfl | rfl | rfl <;> rfl

/-- What closes a text is the last of it. -/
theorem partsNames_through {close : List Char} (hne : close ≠ [])
    (hclose : close.getLast?.any isLetterOrDigit = false) : (through close).PartsNames := by
  intro s w r h _
  obtain ⟨v, rfl⟩ : ∃ v, w = v ++ close := by
    rw [split] at h
    induction s generalizing w with
    | nil => simp [splitThrough, hne] at h
    | cons c s ih =>
      rw [splitThrough] at h
      split at h
      · exact ⟨[], (Prod.mk.inj (Option.some.inj h)).1.symm⟩
      · obtain ⟨m, hm, heq⟩ := Option.map_eq_some_iff.mp h
        obtain ⟨rfl, rfl⟩ := Prod.mk.inj heq
        obtain ⟨v, hv⟩ := ih m.1 hm
        exact ⟨c :: v, by rw [hv]; rfl⟩
  rwa [List.getLast?_append_of_ne_nil _ hne]

theorem PartsNames.seq (hb : b.PartsNames) (hconsumes : b.Consumes = true) :
    (seq a b).PartsNames := by
  intro s w r h hr
  obtain ⟨y, z, _, -, hz, rfl⟩ := exists_of_split_seq h
  rw [List.getLast?_append_of_ne_nil _ (ne_nil_of_consumes hconsumes hz)]
  exact hb _ _ _ hz hr

end Pattern

namespace Lexicon

variable {κ : Type} {lexicon : Lexicon κ} {p : Nat} {s : List Char} {x : Piece κ}

/-- A piece that is not the first begins where another one ends. -/
theorem exists_piece_before (hx : x ∈ lexicon.piecesFrom p s) (hlt : p < x.start) :
    ∃ z ∈ lexicon.piecesFrom p s, z.start + z.text.length = x.start := by
  rw [piecesFrom] at hx ⊢
  generalize lexicon.pieces s.length s = xs at hx ⊢
  induction xs generalizing p with
  | nil => exact absurd hx List.not_mem_nil
  | cons m xs ih =>
    obtain ⟨kind, w⟩ := m
    rw [laid, List.mem_cons] at hx
    rcases hx with rfl | hx
    · exact absurd hlt (Nat.lt_irrefl _)
    by_cases hnext : p + w.length < x.start
    · obtain ⟨z, hz, hend⟩ := ih hnext hx
      exact ⟨z, List.mem_cons_of_mem _ hz, hend⟩
    · have hle : p + w.length ≤ x.start := le_start_of_mem_laid hx
      exact ⟨⟨p, kind, w⟩, List.mem_cons_self, by simp only; omega⟩

end Lexicon

namespace DirectiveKind

/-- Some class takes a letter, a digit or an underscore. -/
theorem firstMatch_ne_none {c : Char} (hc : isLetterOrDigit c = true) (s : List Char) :
    firstMatch lexicon.classes (c :: s) ≠ none := by
  by_cases hname : isNameStart c = true
  · simp [firstMatch_nameStart hname]
  have hdigit : c.isDigit = true := by
    have hcases : (c.isAlpha = true ∨ c.isDigit = true) ∨ c = '_' := by
      simpa [isLetterOrDigit, Char.isAlphanum] using hc
    have hnot : c.isAlpha = false ∧ c ≠ '_' := by simpa [isNameStart] using hname
    simpa [hnot.1, hnot.2] using hcases
  have hmem : (seq (one Char.isDigit) (run fun c => c.isAlphanum || c == '_' || c == '.'),
      fun _ => DirectiveKind.number) ∈ lexicon.classes := by simp [lexicon]
  exact firstMatch_ne_none_of_mem hmem (split_one_seq hdigit rfl)

/-- **In front of a name** no class leaves off behind a letter, a digit or an underscore. -/
theorem partsNames_classes : ∀ cls ∈ lexicon.classes, cls.1.PartsNames := by
  intro cls hcls
  simp only [lexicon, List.mem_cons, List.not_mem_nil, or_false] at hcls
  have hrest : (run isNameRest).TakesNames := takesNames_run fun c hc =>
    Bool.or_eq_true_iff.mpr (.inl (isLetterOrDigit_of_isNameStart hc))
  have hdigits : (run fun c => c.isAlphanum || c == '_' || c == '.').TakesNames :=
    takesNames_run fun c hc => Bool.or_eq_true_iff.mpr (.inl (isLetterOrDigit_of_isNameStart hc))
  have hescaped : (run fun c => !isBlank c).TakesNames := takesNames_run fun c hc => by
    rw [isBlank_of_isNameStart hc]
    rfl
  rcases hcls with h | h | h | h | h | h | h | h | h | h | h | h | h | h | h | h | h | h | h | h |
    h | h <;> subst h
  case inr.inr.inl => exact hrest.seq.seq.parts
  case inr.inr.inr.inl =>
    exact ((partsNames_text (by decide)).seq (by decide)).seq (by decide)
  case inr.inr.inr.inr.inl => exact hescaped.seq.seq.parts
  case inr.inr.inr.inr.inr.inl => exact takesNames_commentRest.seq.parts
  case inr.inr.inr.inr.inr.inr.inl =>
    exact (partsNames_through (by decide) (by decide)).seq (by decide)
  case inr.inr.inr.inr.inr.inr.inr.inl =>
    exact ((partsNames_text (by decide)).seq (by decide)).seq (by decide)
  case inr.inr.inr.inr.inr.inr.inr.inr.inl => exact hrest.seq.parts
  case inr.inr.inr.inr.inr.inr.inr.inr.inr.inl => exact hdigits.seq.parts
  case inr.inr.inr.inr.inr.inr.inr.inr.inr.inr.inl => exact partsNames_blanks
  all_goals exact partsNames_text (by decide)

end DirectiveKind

/-- What stands in front of a name is no letter, digit or underscore. -/
theorem DirectiveKind.exists_before {p : Nat} {s : List Char} {x : Piece DirectiveKind}
    (hx : x ∈ lexicon.piecesFrom p s) (hname : x.IsName) (hlt : p < x.start) :
    ∃ c, s[x.start - p - 1]? = some c ∧ isLetterOrDigit c = false := by
  obtain ⟨z, hz, hend⟩ := exists_piece_before hx hlt
  obtain ⟨hle, r, hcut⟩ := cutsOff_of_mem_piecesFrom hz
  obtain ⟨d, t, hdrop, hd⟩ := exists_drop_eq_cons hx hname
  have heq : s.drop (z.start - p) = z.text ++ r := by simpa using hcut.text_eq
  have hr : r = d :: t := by
    rw [← hdrop, show x.start - p = z.start - p + z.text.length by omega, ← List.drop_drop, heq,
      List.drop_left]
  have hrname : r.head?.any isNameStart = true := by rw [hr]; exact hd
  have hlast : z.text ≠ [] ∧ z.text.getLast?.any isLetterOrDigit = false := by
    rcases hcut.cases_singleton with hfound | ⟨hnone, -, c, hc⟩
    · obtain ⟨-, hne, cls, hcls, hsplit, -⟩ := firstMatch_spec hfound
      exact ⟨hne, partsNames_classes cls hcls _ _ _ hsplit hrname⟩
    · rw [heq, hc] at hnone
      refine ⟨by simp [hc], ?_⟩
      rw [hc]
      exact Bool.eq_false_iff.mpr fun h => firstMatch_ne_none h r hnone
  obtain ⟨hne, hlast⟩ := hlast
  have hpos := List.length_pos_iff.mpr hne
  refine ⟨z.text.getLast hne, ?_, by simpa [List.getLast?_eq_some_getLast hne] using hlast⟩
  rw [show x.start - p - 1 = z.start - p + (z.text.length - 1) by omega, ← List.getElem?_drop, heq,
    List.getElem?_append_left (by omega), List.getElem?_eq_getElem (by omega), Option.some.injEq,
    List.getLast_eq_getElem]

/-! ### Kinds of tokens to judge by what is in them -/

/-- Do names begin in a text only behind letters, digits and underscores? -/
def Joined (w : List Char) : Prop :=
  w.IsChain fun b c => isNameStart c = true → isLetterOrDigit b = true

namespace Pattern

/-- Does a pattern take no name and no part of a name? -/
def IsNameless (a : Pattern) : Prop :=
  ∀ s w r, a.split s = some (w, r) → ∀ c ∈ w, isNameStart c = false

/-- Does a pattern take only texts in which no name begins behind something else? -/
def IsJoined (a : Pattern) : Prop := ∀ s w r, a.split s = some (w, r) → Joined w

theorem isNameless_blanks : (run1 isSpace).IsNameless := by
  intro s w r h c hc
  have hspace : c = ' ' ∨ c = '\t' ∨ c = '\r' ∨ c = '\x0c' := by
    simpa [isSpace, or_assoc] using (forall_of_split_run1 h).2 c hc
  rcases hspace with rfl | rfl | rfl | rfl <;> rfl

theorem isNameless_text {t : List Char} (ht : t.any isNameStart = false) :
    (text t).IsNameless := by
  intro s w r h
  rw [eq_of_split_text h]
  simpa using ht

theorem isNameStart_of_split_word {s w r : List Char} (h : word.split s = some (w, r)) :
    w.head?.any isNameStart = true := by
  obtain ⟨_, z, _, hone, -, rfl⟩ := exists_of_split_seq h
  obtain ⟨c, rfl, hc⟩ := exists_of_split_one hone
  exact hc

theorem isNameRest_of_split_word {s w r : List Char} (h : word.split s = some (w, r)) :
    ∀ c ∈ w, isNameRest c = true := by
  obtain ⟨_, z, _, hone, hrun, rfl⟩ := exists_of_split_seq h
  obtain ⟨c, rfl, hc⟩ := exists_of_split_one hone
  refine List.forall_mem_cons.mpr ⟨?_, forall_of_split_run hrun⟩
  exact Bool.or_eq_true_iff.mpr (.inl (isLetterOrDigit_of_isNameStart hc))

/-- Digits are no name, and nothing in them is no part of one. -/
theorem figures_of_split_digits {s w r : List Char} (h : digits.split s = some (w, r)) :
    (∀ c ∈ w, isLetterOrDigit c = true) ∧ w.head?.any isNameStart = false := by
  obtain ⟨_, z, _, hone, hrun, rfl⟩ := exists_of_split_seq h
  obtain ⟨c, rfl, hc⟩ := exists_of_split_one hone
  have hall : ∀ d ∈ z, d.isDigit = true ∨ d = '_' := by simpa using forall_of_split_run hrun
  refine ⟨?_, ?_⟩
  · rw [List.singleton_append, List.forall_mem_cons]
    refine ⟨by simp [isLetterOrDigit, Char.isAlphanum, hc], fun d hd => ?_⟩
    rcases hall d hd with h | rfl
    · simp [isLetterOrDigit, Char.isAlphanum, h]
    · rfl
  · refine Bool.eq_false_iff.mpr fun hname => ?_
    have := isDigit_of_isNameStart (c := c) hname
    simp [hc] at this

theorem joined_of_forall {w : List Char} (h : ∀ c ∈ w, isLetterOrDigit c = true) : Joined w :=
  List.isChain_iff_getElem.mpr fun _ _ _ => h _ (List.getElem_mem _)

/-- Behind letters and digits a text may go on as it likes. -/
theorem joined_append_of_forall {v w : List Char} (hv : ∀ c ∈ v, isLetterOrDigit c = true)
    (hw : Joined w) : Joined (v ++ w) :=
  (joined_of_forall hv).append hw fun c hc _ _ _ => hv c (List.mem_of_getLast? hc)

/-- Before a text that is no name anything may stand. -/
theorem joined_append {v w : List Char} (hv : Joined v) (hw : Joined w)
    (hname : w.head?.any isNameStart = false) : Joined (v ++ w) :=
  hv.append hw fun _ _ c hc h => by
    rw [Option.mem_def.mp hc] at hname
    exact absurd h (Bool.eq_false_iff.mp hname)

theorem isJoined_digits : digits.IsJoined :=
  fun _ _ _ h => joined_of_forall (figures_of_split_digits h).1

theorem isJoined_exponent : SourceKind.exponent.IsJoined := by
  intro s w r h
  obtain ⟨_, _, _, hletter, hrest, rfl⟩ := exists_of_split_seq h
  obtain ⟨_, ds, _, hsign, hdigits, rfl⟩ := exists_of_split_seq hrest
  obtain ⟨c, rfl, hc⟩ := exists_of_split_one hletter
  obtain ⟨hall, hhead⟩ := figures_of_split_digits hdigits
  refine joined_append_of_forall ?_ (joined_append ?_ (joined_of_forall hall) hhead)
  · have hcases : c = 'e' ∨ c = 'E' := by simpa using hc
    rcases hcases with rfl | rfl <;> simp [isLetterOrDigit]
  · rcases eq_nil_or_of_split_opt hsign with rfl | hsign
    · exact .nil
    · obtain ⟨d, rfl, -⟩ := exists_of_split_one hsign
      exact .singleton d

theorem isJoined_real : SourceKind.realPattern.IsJoined := by
  intro s w r h
  obtain ⟨_, more, mid, hdigits, hmore, rfl⟩ := exists_of_split_seq h
  refine joined_append_of_forall (figures_of_split_digits hdigits).1 ?_
  rw [split] at hmore
  split at hmore
  · rename_i m hfraction
    obtain rfl := Option.some.inj hmore
    obtain ⟨_, _, _, hdot, hrest, rfl⟩ := exists_of_split_seq hfraction
    obtain ⟨ds, _, _, hds, hexponent, rfl⟩ := exists_of_split_seq hrest
    obtain ⟨hall, hhead⟩ := figures_of_split_digits hds
    obtain rfl := eq_of_split_text hdot
    refine joined_append (.singleton _) (joined_append_of_forall hall ?_) ?_
    · rcases eq_nil_or_of_split_opt hexponent with rfl | hexponent
      · exact .nil
      · exact isJoined_exponent _ _ _ hexponent
    · cases ds with
      | nil => exact absurd rfl (ne_nil_of_consumes (by decide) hds)
      | cons d ds => exact hhead
  · exact isJoined_exponent _ _ _ hmore

end Pattern

namespace Lexicon

variable {κ : Type} {lexicon : Lexicon κ} {p : Nat} {s : List Char} {x : Piece κ}

/-- The pieces of a kind that is given to words only are names. -/
theorem isName_of_kind (hother : lexicon.other ≠ x.kind)
    (hclasses : ∀ cls ∈ lexicon.classes, cls.1 = word ∨ ∀ w, cls.2 w ≠ x.kind)
    (hx : x ∈ lexicon.piecesFrom p s) : x.IsName := by
  obtain ⟨-, r, hcut⟩ := cutsOff_of_mem_piecesFrom hx
  rcases hcut.cases_singleton with hfound | ⟨-, hkind, -⟩
  · obtain ⟨-, -, cls, hcls, hsplit, hkind⟩ := firstMatch_spec hfound
    rcases hclasses cls hcls with h | h
    · exact isNameStart_of_split_word (h ▸ hsplit)
    · exact absurd hkind (h _)
  · exact absurd hkind.symm hother

/-- **What covers the place of a name** has the first character of the name in it, and what stands
before the name. -/
theorem getElem?_of_covers {κ' : Type} {lexicon' : Lexicon κ'} {y : Piece κ'}
    (hx : x ∈ lexicon.piecesFrom p s) (hname : x.IsName) (hy : y ∈ lexicon'.piecesFrom p s)
    (hcovers : y.Covers x.start) : ∃ i c, i + 1 < y.text.length ∧ y.text[i + 1]? = some c ∧
      isNameStart c = true ∧ y.text[i]? = s[x.start - p - 1]? := by
  obtain ⟨c, t, hdrop, hc⟩ := exists_drop_eq_cons hx hname
  obtain ⟨hle, r, hcut⟩ := cutsOff_of_mem_piecesFrom hy
  obtain ⟨hbefore, hbehind⟩ := hcovers
  have htext : s.drop (y.start - p) = y.text ++ r := by simpa using hcut.text_eq
  have hget {i : Nat} (hi : i < y.text.length) : y.text[i]? = s[y.start - p + i]? := by
    rw [← List.getElem?_append_left hi, ← htext, List.getElem?_drop]
  refine ⟨x.start - y.start - 1, c, by omega, ?_, hc, ?_⟩
  · rw [hget (by omega),
      show y.start - p + (x.start - y.start - 1 + 1) = x.start - p + 0 by omega,
      ← List.getElem?_drop, hdrop]
    rfl
  · rw [hget (by omega)]
    congr 1
    omega

end Lexicon

namespace DirectiveKind

variable {p : Nat} {s : List Char} {x : Piece DirectiveKind}

theorem kind_of_isName (hx : x ∈ lexicon.piecesFrom p s) (hname : x.IsName) :
    x.kind = .identifier := by
  obtain ⟨c, t, hdrop, hc⟩ := exists_drop_eq_cons hx hname
  obtain ⟨-, r, hcut⟩ := cutsOff_of_mem_piecesFrom hx
  have hfirst := firstMatch_nameStart hc t
  rw [← hdrop] at hfirst
  rcases hcut.cases_singleton with hfound | ⟨hnone, -⟩
  · exact (Prod.mk.inj (Option.some.inj (hfound.symm.trans hfirst))).1
  · simp [hnone] at hfirst

/-- One class gives names. -/
theorem classes_identifier : ∀ cls ∈ lexicon.classes,
    cls.1 = word ∨ ∀ w, cls.2 w ≠ .identifier := by
  intro cls hcls
  simp only [lexicon, List.mem_cons, List.not_mem_nil, or_false] at hcls
  rcases hcls with h | h | h | h | h | h | h | h | h | h | h | h | h | h | h | h | h | h | h | h |
    h | h <;> subst h
  case inr.inr.inl =>
    have hall : ∀ w ∈ keywords, w.2 ≠ .identifier := by decide
    refine .inr fun s => ?_
    rcases ofWord_mem s.tail with h | h
    · simp [h]
    · exact hall _ h
  all_goals first | exact .inl rfl | exact .inr fun _ => by simp

/-- Two classes give the tokens that paste and quote. -/
theorem classes_tick : ∀ cls ∈ lexicon.classes,
    (∃ t, cls.1 = text t ∧ backquote ∈ t) ∨ ∀ w, cls.2 w ≠ .tickTick ∧ cls.2 w ≠ .tickQuote := by
  intro cls hcls
  simp only [lexicon, List.mem_cons, List.not_mem_nil, or_false] at hcls
  rcases hcls with h | h | h | h | h | h | h | h | h | h | h | h | h | h | h | h | h | h | h | h |
    h | h <;> subst h
  case inl => exact .inl ⟨_, rfl, by decide⟩
  case inr.inl => exact .inl ⟨_, rfl, by decide⟩
  case inr.inr.inl =>
    have hall : ∀ w ∈ keywords, w.2 ≠ .tickTick ∧ w.2 ≠ .tickQuote := by decide
    refine .inr fun s => ?_
    rcases ofWord_mem s.tail with h | h
    · simp [h]
    · exact hall _ h
  all_goals exact .inr fun _ => by simp

/-- What the classes are that may take a part of a name and begin with no opener. -/
theorem classes_holding : ∀ cls ∈ lexicon.classes, cls.1.IsOpened = true ∨ cls.1.IsNameless ∨
    ∀ w, cls.2 w = .identifier ∨ cls.2 w = .number := by
  intro cls hcls
  simp only [lexicon, List.mem_cons, List.not_mem_nil, or_false] at hcls
  rcases hcls with h | h | h | h | h | h | h | h | h | h | h | h | h | h | h | h | h | h | h | h |
    h | h <;> subst h
  case inr.inr.inr.inr.inr.inr.inr.inr.inr.inr.inl => exact .inr (.inl isNameless_blanks)
  all_goals first
    | exact .inl (by decide)
    | exact .inr (.inl (isNameless_text (by decide)))
    | exact .inr (.inr fun _ => by simp)

end DirectiveKind

namespace SourceKind

variable {p : Nat} {s : List Char} {x : Piece SourceKind}

/-- The kinds of tokens that hide names: numbers with a quote, system identifiers and marks. -/
def hidesNames : SourceKind → Bool
  | .systemIdentifier | .basedNumber | .unbasedUnsized | .preprocBegin | .preprocEnd => true
  | _ => false

theorem kind_of_isName (hx : x ∈ lexicon.piecesFrom p s) (hname : x.IsName) :
    x.kind = ofWord x.text := by
  obtain ⟨c, t, hdrop, hc⟩ := exists_drop_eq_cons hx hname
  obtain ⟨-, r, hcut⟩ := cutsOff_of_mem_piecesFrom hx
  have hfirst := firstMatch_nameStart hc t
  rw [← hdrop] at hfirst
  rcases hcut.cases_singleton with hfound | ⟨hnone, -⟩
  · obtain ⟨hkind, htext⟩ := Prod.mk.inj (Option.some.inj (hfound.symm.trans hfirst))
    rw [hkind, (Prod.mk.inj htext).1]
  · simp [hnone] at hfirst

theorem classes_identifier : ∀ cls ∈ lexicon.classes,
    cls.1 = word ∨ ∀ w, cls.2 w ≠ .identifier := by
  intro cls hcls
  rcases List.mem_append.mp hcls with hcls | hcls
  · simp only [List.mem_cons, List.not_mem_nil, or_false] at hcls
    rcases hcls with h | h | h | h | h | h | h | h | h | h | h | h | h | h <;> subst h
    all_goals first | exact .inl rfl | exact .inr fun _ => by simp
  · obtain ⟨op, hop, rfl⟩ := List.mem_map.mp hcls
    have hall : ∀ op ∈ operators, op.2 ≠ .identifier := by decide
    exact .inr fun _ => hall op hop

/-- What the classes are that may take a part of a name behind something else and begin with no
opener. -/
theorem classes_holding : ∀ cls ∈ lexicon.classes, cls.1.IsOpened = true ∨ cls.1.IsNameless ∨
    cls.1.IsJoined ∨ cls = (word, ofWord) ∨ ∀ w, (cls.2 w).hidesNames = true := by
  intro cls hcls
  rcases List.mem_append.mp hcls with hcls | hcls
  · simp only [List.mem_cons, List.not_mem_nil, or_false] at hcls
    rcases hcls with h | h | h | h | h | h | h | h | h | h | h | h | h | h <;> subst h
    case inr.inr.inl => exact .inr (.inl isNameless_blanks)
    case inr.inr.inr.inr.inr.inr.inr.inr.inr.inr.inr.inl => exact .inr (.inr (.inl isJoined_real))
    case inr.inr.inr.inr.inr.inr.inr.inr.inr.inr.inr.inr.inl =>
      exact .inr (.inr (.inl isJoined_digits))
    all_goals first
      | exact .inl (by decide)
      | exact .inr (.inr (.inr (.inr fun _ => rfl)))
      | exact .inr (.inr (.inr (.inl rfl)))
  · obtain ⟨op, hop, rfl⟩ := List.mem_map.mp hcls
    have hall : ∀ op ∈ operators, op.1.any isNameStart = false := by decide
    exact .inr (.inl (isNameless_text (hall op hop)))

/-- No reserved word has a dollar sign in it. -/
theorem ofWord_of_dollar {w : List Char} (h : '$' ∈ w) : ofWord w = .identifier := by
  have hall : ∀ r ∈ reserved, '$' ∉ r.1.toList := by decide
  rw [ofWord]
  cases hlook : reserved.lookup (String.ofList w) with
  | none => rfl
  | some kind =>
    obtain ⟨before, after, heq, -⟩ := List.lookup_eq_some_iff.mp hlook
    have hmem : (String.ofList w, kind) ∈ reserved := by rw [heq]; simp
    exact absurd h (by simpa using hall _ hmem)

end SourceKind

section

variable {p : Nat} {s : List Char} {x : Piece DirectiveKind} {y : Piece SourceKind}

/-- A class that begins with an opener gives no other pieces. -/
theorem Lexicon.Piece.IsPlain.not_isOpened {κ : Type} {z : Piece κ} {a : Pattern} {r : List Char}
    (hplain : z.IsPlain) (hne : z.text ≠ []) (hsplit : a.split (z.text ++ r) = some (z.text, r)) :
    a.IsOpened = false := by
  obtain ⟨d, w, hw⟩ := List.exists_cons_of_ne_nil hne
  have hd : isOpener d = false := by simpa [Piece.IsPlain, hw] using hplain
  by_contra hopened
  rw [hw, List.cons_append,
    split_of_refuses _ _ (refuses_of_isOpened hd (Bool.not_eq_false _ ▸ hopened))] at hsplit
  cases hsplit

/-- **What hides a name from the lexicon of directives**: a number, or a name that begins before. -/
theorem DirectiveKind.kind_of_covers (hy : y ∈ SourceKind.lexicon.piecesFrom p s)
    (hname : y.IsName) (hx : x ∈ lexicon.piecesFrom p s) (hplain : x.IsPlain)
    (hcovers : x.Covers y.start) : x.kind = .identifier ∨ x.kind = .number := by
  obtain ⟨i, c, hi, hget, hc, -⟩ := getElem?_of_covers hy hname hx hcovers
  obtain ⟨-, r, hcut⟩ := cutsOff_of_mem_piecesFrom hx
  rcases hcut.cases_singleton with hfound | ⟨-, -, d, hd⟩
  · obtain ⟨heq, hne, cls, hcls, hsplit, hkind⟩ := firstMatch_spec hfound
    rcases classes_holding cls hcls with h | h | h
    · rw [hplain.not_isOpened hne (heq ▸ hsplit)] at h
      cases h
    · rw [h _ _ _ hsplit c (List.mem_of_getElem? hget)] at hc
      cases hc
    · exact hkind ▸ h x.text
  · rw [hd, List.length_singleton] at hi
    omega

/-- **What hides a name from the lexicon of source text**: a number with a quote, a system
identifier or a mark, or a name with a dollar sign in it that begins before. -/
theorem SourceKind.kind_of_covers (hx : x ∈ DirectiveKind.lexicon.piecesFrom p s)
    (hname : x.IsName) (hy : y ∈ lexicon.piecesFrom p s) (hplain : y.IsPlain)
    (hcovers : y.Covers x.start) :
    y.kind.hidesNames = true ∨ y.kind = .identifier ∧ '$' ∈ y.text := by
  obtain ⟨i, c, hi, hget, hc, hbefore⟩ := getElem?_of_covers hx hname hy hcovers
  obtain ⟨hle, r, hcut⟩ := cutsOff_of_mem_piecesFrom hy
  obtain ⟨b, hb, hletter⟩ := DirectiveKind.exists_before hx hname (hle.trans_lt hcovers.1)
  rw [hb] at hbefore
  rcases hcut.cases_singleton with hfound | ⟨-, -, d, hd⟩
  · obtain ⟨heq, hne, cls, hcls, hsplit, hkind⟩ := firstMatch_spec hfound
    rcases classes_holding cls hcls with h | h | h | rfl | h
    · rw [hplain.not_isOpened hne (heq ▸ hsplit)] at h
      cases h
    · rw [h _ _ _ hsplit c (List.mem_of_getElem? hget)] at hc
      cases hc
    · -- a name does not begin in such a token behind what is no part of names
      have hjoined := List.isChain_iff_getElem.mp (h _ _ _ hsplit) i hi
      obtain ⟨_, hat⟩ := List.getElem?_eq_some_iff.mp hget
      obtain ⟨_, hat'⟩ := List.getElem?_eq_some_iff.mp hbefore
      rw [hat, hat', hletter] at hjoined
      cases hjoined hc
    · have hdollar : b = '$' := by
        have hrest := isNameRest_of_split_word hsplit b (List.mem_of_getElem? hbefore)
        rw [isNameRest, Bool.or_eq_true] at hrest
        exact beq_iff_eq.mp (hrest.resolve_left (Bool.eq_false_iff.mp hletter))
      have hmem : '$' ∈ y.text := hdollar ▸ List.mem_of_getElem? hbefore
      exact .inr ⟨hkind.symm.trans (ofWord_of_dollar hmem), hmem⟩
    · exact .inl (hkind ▸ h y.text)
  · rw [hd, List.length_singleton] at hi
    omega

end

end Verilog
