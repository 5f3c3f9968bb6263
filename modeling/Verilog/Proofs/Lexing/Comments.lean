import Verilog.Proofs.Lexing.InStep
import Verilog.Proofs.Literal.Layout
import Verilog.Proofs.Source.Feeds

/-!
# Blanks for comments

A comment parts two tokens as a blank does, so a text is read as it would be with blanks for some of
its comments (`Uncommented.visiblePieces_eq`), and blanks at its end are not seen either
(`visiblePieces_append_blanks`). The tokens are taken from the left, and those of the first text are
those of the second up to the place where one gives way to the other (`GivesWay.cutsOff`). There a
slash stands in the first text, or its end, and a blank in the second. Most classes stop at all of
these. The others need a look:

* A comment in slashes and stars, or a string, goes on past any slash and any blank. If it is closed
  it is the same in both texts. If it is not, then nothing closes it in the second text either, as
  what stands there is part of what stands in the first. For strings this takes the line feeds of a
  comment: they have to stay.
* An escaped name and a comment on one line go past a slash. But the slash begins a token, so they
  end before it.
* A number with a base may have blanks in it, but no comments. It is the one token that may come to
  be where a comment goes, and it has to be ruled out.
-/

namespace Verilog

open Lexicon Pattern SourceKind

/-! ### What is taken of two texts -/

namespace Pattern

variable {a b : Pattern} {p : Char → Bool} {s t x rest : List Char}

/-- **Does a pattern take the same of two texts?** -/
def TakesSame (a : Pattern) (s t : List Char) : Prop :=
  (a.split s).map Prod.fst = (a.split t).map Prod.fst

theorem TakesSame.of_none (hs : a.split s = none) (ht : a.split t = none) : a.TakesSame s t := by
  rw [TakesSame, hs, ht]

theorem TakesSame.of_some {r r' : List Char} (hs : a.split s = some (x, r))
    (ht : a.split t = some (x, r')) : a.TakesSame s t := by
  rw [TakesSame, hs, ht]
  rfl

theorem TakesSame.of_refuses {c : Char} (ha : a.Refuses c = true) (s t : List Char) :
    a.TakesSame (c :: s) (c :: t) :=
  .of_none (split_of_refuses s a ha) (split_of_refuses t a ha)

/-- Behind what the texts have in common there are characters at which the pattern stops. -/
theorem TakesSame.of_endsAt (hs : ∀ c ∈ s.head?, a.EndsAt c = true)
    (ht : ∀ c ∈ t.head?, a.EndsAt c = true) (u : List Char) : a.TakesSame (u ++ s) (u ++ t) := by
  have hstop {s : List Char} (hs : ∀ c ∈ s.head?, a.EndsAt c = true) :
      (a.split (u ++ s)).map Prod.fst = (a.split u).map Prod.fst := by
    cases s with
    | nil => rw [List.append_nil]
    | cons c s =>
      rw [split_of_endsAt (hs c rfl), Option.map_map]
      rfl
  exact (hstop hs).trans (hstop ht).symm

theorem stripFront_eq_none {u : List Char} (hlen : t.length ≤ u.length) (h : ¬ t <+: u)
    (rest : List Char) : stripFront t (u ++ rest) = none := by
  cases hs : stripFront t (u ++ rest) with
  | none => rfl
  | some r =>
    have hstart : t <+: u ++ rest := ⟨r, (stripFront_eq_some hs).symm⟩
    exact absurd (List.prefix_of_prefix_length_le hstart (List.prefix_append u rest) hlen) h

/-- What goes up to a closing text ends in it. -/
theorem exists_of_splitThrough {close : List Char} (h : splitThrough close s = some (x, rest)) :
    ∃ v, x = v ++ close := by
  induction s generalizing x with
  | nil =>
    rw [splitThrough] at h
    split at h
    · rename_i hempty
      obtain ⟨rfl, -⟩ := Prod.mk.inj (Option.some.inj h)
      exact ⟨[], (List.isEmpty_iff.mp hempty).symm⟩
    · cases h
  | cons c s ih =>
    rw [splitThrough] at h
    split at h
    · obtain ⟨rfl, -⟩ := Prod.mk.inj (Option.some.inj h)
      exact ⟨[], rfl⟩
    · obtain ⟨⟨y, _⟩, hy, heq⟩ := Option.map_eq_some_iff.mp h
      obtain ⟨rfl, rfl⟩ := Prod.mk.inj heq
      obtain ⟨v, rfl⟩ := ih hy
      exact ⟨c :: v, rfl⟩

/-- What goes up to a closing text does not hang on what follows. -/
theorem splitThrough_congr {close : List Char} (h : splitThrough close (x ++ s) = some (x, s))
    (t : List Char) : splitThrough close (x ++ t) = some (x, t) := by
  induction x with
  | nil =>
    obtain ⟨v, hv⟩ := exists_of_splitThrough h
    obtain ⟨-, rfl⟩ := List.append_eq_nil_iff.mp hv.symm
    cases t <;> rfl
  | cons c x ih =>
    rw [List.cons_append, splitThrough] at h ⊢
    split at h
    · rename_i r hr
      obtain ⟨rfl, rfl⟩ := Prod.mk.inj (Option.some.inj h)
      rw [← List.cons_append, stripFront_append]
    · rename_i hnone
      obtain ⟨⟨y, r⟩, hy, heq⟩ := Option.map_eq_some_iff.mp h
      obtain ⟨hcons, rfl⟩ := Prod.mk.inj heq
      obtain rfl := (List.cons.inj hcons).2
      obtain ⟨v, hv⟩ := exists_of_splitThrough hy
      -- the closing text is no longer than what was taken, so it is not met earlier
      have hlen : close.length ≤ (c :: y).length := by
        rw [hv, List.length_cons, List.length_append]
        omega
      have hnot : ¬ close <+: c :: y := by
        rintro ⟨z, hz⟩
        rw [← List.cons_append, ← hz, List.append_assoc, stripFront_append] at hnone
        cases hnone
      rw [← List.cons_append, stripFront_eq_none hlen hnot, ih hy]
      rfl

theorem split_starComment (s : List Char) : starComment.split ('/' :: '*' :: s) =
    (splitThrough ['*', '/'] s).map fun m => ('/' :: '*' :: m.1, m.2) := rfl

/-- A text is closed if the closing text is in it. -/
theorem isSome_splitThrough {close : List Char} (s : List Char) :
    (splitThrough close s).isSome = true ↔ close <:+: s := by
  induction s with
  | nil => cases close <;> simp [splitThrough]
  | cons c s ih =>
    rw [splitThrough, List.infix_cons_iff]
    cases hs : stripFront close (c :: s) with
    | some r => simpa using .inl ⟨r, (stripFront_eq_some hs).symm⟩
    | none =>
      have hnot : ¬ close <+: c :: s := by
        rintro ⟨r, hr⟩
        rw [← hr, stripFront_append] at hs
        cases hs
      simpa [hnot] using ih

end Pattern

namespace Lexicon

variable {κ : Type} {lexicon : Lexicon κ} {classes : List (Pattern × (List Char → κ))}
  {s t w : List Char} {k : κ}

theorem firstMatch_of_takesSame (h : ∀ cls ∈ classes, cls.1.TakesSame s t) :
    (firstMatch classes s).map (fun m => (m.1, m.2.1)) =
      (firstMatch classes t).map fun m => (m.1, m.2.1) := by
  induction classes with
  | nil => rfl
  | cons cls classes ih =>
    obtain ⟨hcls, hclasses⟩ := List.forall_mem_cons.mp h
    rw [TakesSame] at hcls
    rw [firstMatch, firstMatch]
    cases hs : cls.1.split s with
    | none =>
      rw [hs, Option.map_none, eq_comm, Option.map_eq_none_iff] at hcls
      rw [hcls]
      exact ih hclasses
    | some m =>
      obtain ⟨x, r⟩ := m
      rw [hs, Option.map_some, eq_comm, Option.map_eq_some_iff] at hcls
      obtain ⟨⟨y, r'⟩, ht, rfl⟩ := hcls
      rw [ht]
      cases y with
      | nil => exact ih hclasses
      | cons c y => rfl

/-- What is cut off is what the first match takes. -/
theorem CutsOff.eq_of_firstMatch {k' : κ} {w' r : List Char} (hcut : lexicon.CutsOff s [(k, w)] t)
    (h : firstMatch lexicon.classes s = some (k', w', r)) : k = k' ∧ w = w' ∧ t = r := by
  rcases hcut.cases_singleton with hfound | ⟨hnone, -⟩
  · obtain ⟨hk, htext⟩ := Prod.mk.inj (Option.some.inj (hfound.symm.trans h))
    exact ⟨hk, Prod.mk.inj htext⟩
  · cases hnone.symm.trans h

/-- If every class takes the same of two texts, the same token is cut off both. -/
theorem CutsOff.of_takesSame (hcut : lexicon.CutsOff (w ++ s) [(k, w)] s)
    (h : ∀ cls ∈ lexicon.classes, cls.1.TakesSame (w ++ s) (w ++ t)) :
    lexicon.CutsOff (w ++ t) [(k, w)] t := by
  have hsame := firstMatch_of_takesSame h
  rcases hcut.cases_singleton with hfound | ⟨hnone, rfl, c, rfl⟩
  · rw [hfound, Option.map_some, eq_comm, Option.map_eq_some_iff] at hsame
    obtain ⟨⟨k', w', r⟩, hm, heq⟩ := hsame
    obtain ⟨rfl, rfl⟩ := Prod.mk.inj heq
    obtain rfl := List.append_cancel_left (firstMatch_spec hm).1
    exact .found hm (.nil _)
  · rw [hnone, Option.map_none, eq_comm, Option.map_eq_none_iff] at hsame
    exact .other hsame (.nil t)

end Lexicon

/-! ### Comments -/

/-- The classes of comments are the only ones that give comments. -/
theorem classes_comment : ∀ cls ∈ lexicon.classes,
    cls = (seq (text ['/', '/']) (run fun c => c != '\n'), fun _ => .oneLineComment) ∨
      cls = (starComment, fun _ => .blockComment) ∨
        ∀ w, cls.2 w ≠ .blockComment ∧ cls.2 w ≠ .oneLineComment := by
  intro cls hcls
  rcases List.mem_append.mp hcls with hcls | hcls
  · simp only [List.mem_cons, List.not_mem_nil, or_false] at hcls
    rcases hcls with h | h | h | h | h | h | h | h | h | h | h | h | h | h <;> subst h
    case inr.inr.inr.inr.inl => exact .inl rfl
    case inr.inr.inr.inr.inr.inl => exact .inr (.inl rfl)
    case inr.inr.inr.inr.inr.inr.inr.inr.inr.inr.inr.inr.inr =>
      exact .inr (.inr (ofWord_cases (P := fun k => k ≠ .blockComment ∧ k ≠ .oneLineComment)
        (by decide) (by decide)))
    all_goals exact .inr (.inr fun _ => ⟨nofun, nofun⟩)
  · obtain ⟨op, hop, rfl⟩ := List.mem_map.mp hcls
    have hall : ∀ op ∈ operators, op.2 ≠ .blockComment ∧ op.2 ≠ .oneLineComment := by decide
    exact .inr (.inr fun _ => hall op hop)

section

variable {k : SourceKind} {w s : List Char}

/-- A comment on one line goes up to the end of the line. -/
theorem exists_of_oneLineComment (hx : lexicon.CutsOff (w ++ s) [(.oneLineComment, w)] s) :
    ∃ v, w = '/' :: '/' :: v ∧ '\n' ∉ v ∧ ∀ c ∈ s.head?, c = '\n' := by
  rcases hx.cases_singleton with hfound | ⟨-, hkind, -⟩
  · obtain ⟨-, -, cls, hcls, hsplit, hkind⟩ := firstMatch_spec hfound
    rcases classes_comment cls hcls with rfl | rfl | h
    · obtain ⟨y, z, mid, hy, hz, heq⟩ := exists_of_split_seq hsplit
      obtain rfl := eq_of_split_text hy
      refine ⟨z, heq, fun hc => ?_, fun c hc => ?_⟩
      · simpa using forall_of_split_run hz _ hc
      · simpa using head_of_split_run hz c hc
    · cases hkind
    · exact absurd hkind (h w).2
  · cases hkind

/-- A comment in slashes and stars is closed. -/
theorem exists_of_blockComment (hx : lexicon.CutsOff (w ++ s) [(.blockComment, w)] s) :
    ∃ v, w = '/' :: '*' :: v ++ ['*', '/'] := by
  rcases hx.cases_singleton with hfound | ⟨-, hkind, -⟩
  · obtain ⟨-, -, cls, hcls, hsplit, hkind⟩ := firstMatch_spec hfound
    rcases classes_comment cls hcls with rfl | rfl | h
    · cases hkind
    · obtain ⟨y, z, mid, hy, hz, heq⟩ := exists_of_split_seq hsplit
      obtain rfl := eq_of_split_text hy
      obtain ⟨v, rfl⟩ := exists_of_splitThrough hz
      exact ⟨v, by rw [heq]; rfl⟩
    · exact absurd hkind (h w).1
  · cases hkind

end

/-! ### What is closed and what stays open -/

/-- The closing text of a comment stands in one of two texts, if the second begins with no slash. -/
theorem closing_infix_append {v r : List Char} (hr : r.head? ≠ some '/')
    (h : ['*', '/'] <:+: v ++ r) : ['*', '/'] <:+: v ∨ ['*', '/'] <:+: r := by
  induction v with
  | nil => exact .inr h
  | cons c v ih =>
    rw [List.cons_append, List.infix_cons_iff] at h
    rcases h with ⟨z, hz⟩ | h
    · obtain ⟨rfl, hrest⟩ := List.cons.inj hz
      cases v with
      | nil => exact absurd (by rw [← List.nil_append r, ← hrest]; rfl) hr
      | cons d v =>
        obtain ⟨rfl, -⟩ := List.cons.inj hrest
        exact .inl (List.prefix_append ['*', '/'] v).isInfix
    · exact (ih h).imp_left (·.trans (List.suffix_cons c v).isInfix)

/-- A text without stars closes no comment. -/
theorem closing_infix_of_append {b r : List Char} (hb : '*' ∉ b) (h : ['*', '/'] <:+: b ++ r) :
    ['*', '/'] <:+: r := by
  induction b with
  | nil => exact h
  | cons c b ih =>
    rw [List.mem_cons, not_or] at hb
    rw [List.cons_append, List.infix_cons_iff] at h
    rcases h with ⟨z, hz⟩ | h
    · exact absurd (List.cons.inj hz).1 hb.1
    · exact ih hb.2 h

/-- Does a string end in a text that goes on behind its quote, or behind a backslash in it? -/
def closesString : Bool → List Char → Bool
  | _, [] => false
  | true, _ :: s => closesString false s
  | false, c :: s => c == '"' || c != '\n' && closesString (c == '\\') s

theorem isSome_split_quotedRest (s : List Char) :
    (quotedRest.split s).isSome = closesString false s := by
  induction hn : s.length using Nat.strong_induction_on generalizing s with
  | _ n ih =>
    cases s with
    | nil => rfl
    | cons c s =>
      by_cases hend : c = '"' ∨ c = '\n'
      · rw [quotedRest, split_many_seq_of_none (split_quotedCharacter_of_end hend s)]
        rcases hend with rfl | rfl <;> rfl
      rw [not_or] at hend
      by_cases hslash : c = '\\'
      · subst hslash
        cases s with
        | nil => rfl
        | cons d s =>
          rw [split_quotedRest_of_split (split_quotedCharacter_escaped d s), Option.isSome_map,
            ih s.length (by simp only [List.length_cons] at hn; omega) s rfl]
          rfl
      · rw [split_quotedRest_of_split (split_quotedCharacter ⟨hend.1, hslash, hend.2⟩ s),
          Option.isSome_map, ih s.length (by simp only [List.length_cons] at hn; omega) s rfl]
        have hplain : (c == '"') = false ∧ (c != '\n') = true ∧ (c == '\\') = false := by
          simpa using ⟨hend.1, hend.2, hslash⟩
        rw [closesString, hplain.1, hplain.2.1, hplain.2.2]
        rfl

/-- What closes a string behind a text closes it behind another text alike. -/
theorem closesString_append {s t : List Char}
    (h : ∀ e, closesString e t = true → closesString e s = true) (w : List Char) (e : Bool) :
    closesString e (w ++ t) = true → closesString e (w ++ s) = true := by
  induction w generalizing e with
  | nil => exact h e
  | cons c w ih =>
    cases e with
    | true => exact ih false
    | false =>
      simp only [List.cons_append, closesString, Bool.or_eq_true, Bool.and_eq_true]
      exact Or.imp_right (And.imp_right (ih _))

theorem closesString_of_not_mem {s : List Char} (hs : '"' ∉ s) (e : Bool) :
    closesString e s = false := by
  induction s generalizing e with
  | nil => cases e <;> rfl
  | cons c s ih =>
    rw [List.mem_cons, not_or] at hs
    cases e with
    | true => exact ih hs.2 false
    | false => simp [closesString, ih hs.2, Ne.symm hs.1]

/-- What goes up to a closing quote does not hang on what follows. -/
theorem split_quotedRest_congr {v s : List Char} (h : quotedRest.split (v ++ s) = some (v, s))
    (t : List Char) : quotedRest.split (v ++ t) = some (v, t) := by
  induction hn : v.length using Nat.strong_induction_on generalizing v with
  | _ n ih =>
    have hturn {x v' : List Char} {c : Char} (hx : ∀ z, quotedCharacter.split (c :: x ++ z) =
        some (c :: x, z)) (hv : v = c :: x ++ v') : quotedRest.split (v ++ t) = some (v, t) := by
      subst hv
      rw [List.append_assoc, split_quotedRest_of_split (hx _)] at h ⊢
      obtain ⟨⟨y, r⟩, hy, heq⟩ := Option.map_eq_some_iff.mp h
      obtain ⟨hcons, rfl⟩ := Prod.mk.inj heq
      obtain rfl := List.append_cancel_left hcons
      rw [ih y.length (by simp only [List.length_append, List.length_cons] at hn; omega) hy rfl]
      rfl
    cases v with
    | nil => exact absurd rfl (ne_nil_of_consumes (by decide) h)
    | cons c v =>
      by_cases hend : c = '"' ∨ c = '\n'
      · rw [List.cons_append, quotedRest,
          split_many_seq_of_none (split_quotedCharacter_of_end hend _)] at h ⊢
        rcases hend with rfl | rfl
        · obtain ⟨hv, -⟩ := Prod.mk.inj (Option.some.inj h)
          obtain rfl := (List.cons.inj hv).2
          rfl
        · cases h
      rw [not_or] at hend
      by_cases hslash : c = '\\'
      · subst hslash
        cases v with
        | nil =>
          cases s with
          | nil => cases h
          | cons d s =>
            rw [List.cons_append, List.nil_append,
              split_quotedRest_of_split (split_quotedCharacter_escaped d s)] at h
            obtain ⟨m, -, heq⟩ := Option.map_eq_some_iff.mp h
            simp at heq
        | cons d v => exact hturn (x := [d]) (fun z => split_quotedCharacter_escaped d z) rfl
      · exact hturn (x := []) (fun z => split_quotedCharacter ⟨hend.1, hslash, hend.2⟩ z) rfl

/-! ### Numbers -/

section

variable {v r u s t : List Char}

/-- A number ends in a figure. -/
theorem BasedSpelling.getLast?_text (n : BasedSpelling) : n.text.getLast? = n.digits.getLast? := by
  have htext : n.text = (n.size ++ n.before ++ '\'' :: (n.sign ++ n.radix.letter n.large ::
      n.behind)) ++ n.digits := by simp [BasedSpelling.text]
  rw [htext, List.getLast?_append_of_ne_nil _ n.digits_ne_nil]

/-- No figure is left behind a number. -/
theorem not_figure_of_split (h : basedPattern.split s = some (v, r)) :
    ∀ c ∈ r.head?, c ∉ figures := by
  obtain ⟨_, _, _, -, h, -⟩ := exists_of_split_seq h
  obtain ⟨_, _, _, -, h, -⟩ := exists_of_split_seq h
  obtain ⟨_, _, _, -, h, -⟩ := exists_of_split_seq h
  obtain ⟨_, _, _, -, h, -⟩ := exists_of_split_seq h
  obtain ⟨_, _, _, -, h, -⟩ := exists_of_split_seq h
  obtain ⟨_, _, _, -, h, -⟩ := exists_of_split_seq h
  intro c hc hfigure
  cases (figure_iff.mpr hfigure).symm.trans (head_of_split_run h c hc)

/-- **A number that stops before a place** is the same whatever follows there that is no figure. -/
theorem split_basedPattern_congr (h : basedPattern.split (u ++ s) = some (v, r)) (hv : v <+: u)
    (ht : ∀ c ∈ t.head?, c ∉ figures) : ∃ r', basedPattern.split (u ++ t) = some (v, r') := by
  have hstop := not_figure_of_split h
  obtain ⟨b, rfl⟩ := exists_basedSpelling h
  obtain ⟨z, rfl⟩ := hv
  have hr : r = z ++ s := by simpa using (split_eq_append h).symm
  refine ⟨z ++ t, ?_⟩
  rw [List.append_assoc]
  refine b.split_text_append ?_
  cases z with
  | nil => exact ht
  | cons d z =>
    rw [hr] at hstop
    exact hstop

end

/-! ### Tokens before the place where texts part -/

section

variable {b s t u w : List Char} {k : SourceKind}

/-- **May a text give way to another one** behind a token? The first begins with a slash, if it is
not empty, and the second with a blank. What the second closes is closed by the first. -/
structure GivesWay (s t : List Char) : Prop where
  slash : ∀ c ∈ s.head?, c = '/'
  blank : ∀ c ∈ t.head?, isSpace c = true
  comment : ∀ v, ['*', '/'] <:+: v ++ t → ['*', '/'] <:+: v ++ s
  string : ∀ e, closesString e t = true → closesString e s = true

theorem GivesWay.of_blanks (hb : ∀ c ∈ b, isSpace c = true) : GivesWay [] b where
  slash := nofun
  blank c hc := hb c (List.mem_of_mem_head? hc)
  comment v hin := by
    have hslash : b.head? ≠ some '/' := fun h => by cases hb _ (List.mem_of_mem_head? h)
    rw [List.append_nil]
    refine (closing_infix_append hslash hin).resolve_right fun hin => ?_
    cases hb _ (hin.subset List.mem_cons_self)
  string e h := by
    rw [closesString_of_not_mem (fun hc => by cases hb _ hc) e] at h
    cases h

theorem ne_nil_of_cutsOff (hx : lexicon.CutsOff (w ++ s) [(k, w)] s) : w ≠ [] := by
  rcases hx.cases_singleton with hfound | ⟨-, -, c, rfl⟩
  · exact (firstMatch_spec hfound).2.1
  · exact List.cons_ne_nil _ _

theorem takesSame_slash (hx : lexicon.CutsOff (w ++ s) [(k, w)] s) (t : List Char) :
    (text ['/']).TakesSame (w ++ s) (w ++ t) := by
  obtain ⟨c, w, rfl⟩ := List.exists_cons_of_ne_nil (ne_nil_of_cutsOff hx)
  by_cases hc : '/' = c
  · subst hc
    exact .of_some (Pattern.split_text ['/'] _) (Pattern.split_text ['/'] _)
  · exact .of_refuses (by simp [Refuses, hc]) _ _

namespace GivesWay

variable (h : GivesWay s t) (hx : lexicon.CutsOff (w ++ (u ++ s)) [(k, w)] (u ++ s))

include h

theorem takesSame_of_endsAt {a : Pattern}
    (ha : ['/', ' ', '\t', '\r', '\x0c'].all a.EndsAt = true) (u : List Char) :
    a.TakesSame (u ++ s) (u ++ t) := by
  have hall := List.all_eq_true.mp ha
  refine .of_endsAt (fun c hc => hall c ?_) (fun c hc => hall c ?_) u
  · simp [h.slash c hc]
  · have hcases : c = ' ' ∨ c = '\t' ∨ c = '\r' ∨ c = '\x0c' := by
      simpa [isSpace, or_assoc] using h.blank c hc
    simp [hcases]

/-- A number is the same in both texts if it does not go on behind the place where they part. -/
theorem takesSame_basedPattern
    (hnumber : ∀ v r, basedPattern.split (u ++ t) = some (v, r) → v <+: u) :
    basedPattern.TakesSame (u ++ s) (u ++ t) := by
  have hslash : ∀ c ∈ s.head?, c ∉ figures := fun c hc => by
    rw [h.slash c hc]
    decide
  have hblank : ∀ c ∈ t.head?, c ∉ figures := fun c hc hmem => by
    have hall : ∀ c ∈ figures, isSpace c = false := List.all_iff_forall_prop.mp (by decide)
    cases (hall c hmem).symm.trans (h.blank c hc)
  cases hs : basedPattern.split (u ++ s) with
  | some m =>
    obtain ⟨v, r⟩ := m
    have hstart : v <+: u := by
      have hfree := not_mem_of_excludes (c := '/') (by decide) hs
      rcases List.append_eq_append_iff.mp (split_eq_append hs) with ⟨z, rfl, hz⟩ | ⟨z, hz, -⟩
      · cases z with
        | nil => simp
        | cons c z =>
          obtain rfl := h.slash c (by rw [hz]; rfl)
          simp at hfree
      · exact ⟨z, hz.symm⟩
    exact .of_some hs (split_basedPattern_congr hs hstart hblank).choose_spec
  | none =>
    refine .of_none hs (Option.eq_none_iff_forall_ne_some.mpr fun ⟨v, r⟩ ht => ?_)
    obtain ⟨r', hs'⟩ := split_basedPattern_congr ht (hnumber v r ht) hslash
    cases hs.symm.trans hs'

include hx

/-- A slash does not stand before a slash by itself. -/
theorem front_ne_slash (hs : s ≠ []) : w ++ u ≠ ['/'] := by
  intro hfront
  obtain ⟨c, s, rfl⟩ := List.exists_cons_of_ne_nil hs
  obtain rfl := h.slash c rfl
  have htext : w ++ (u ++ '/' :: s) = '/' :: '/' :: s := by
    rw [← List.append_assoc, hfront]
    rfl
  have hfirst := (firstMatch_slash ('/' :: s)).trans (firstMatch_cons rfl)
  rw [← htext] at hfirst
  obtain ⟨-, rfl, -⟩ := hx.eq_of_firstMatch hfirst
  simp at hfront

/-- Where the texts part nothing begins that has a slash and one more character. -/
theorem stripFront_slash (d : Char) (hd : isSpace d = false) :
    (stripFront ['/', d] (w ++ (u ++ s)) = none ∧ stripFront ['/', d] (w ++ (u ++ t)) = none) ∨
      ∃ r, w ++ u = '/' :: d :: r := by
  by_cases hopens : ['/', d] <+: w ++ u
  · exact .inr (hopens.imp fun _ => Eq.symm)
  refine .inl ?_
  rw [← List.append_assoc, ← List.append_assoc]
  obtain ⟨c, w, rfl⟩ := List.exists_cons_of_ne_nil (ne_nil_of_cutsOff hx)
  cases hfront : w ++ u with
  | cons e front =>
    have hlong : ['/', d].length ≤ (c :: w ++ u).length := by simp [hfront]
    exact ⟨stripFront_eq_none hlong hopens _, stripFront_eq_none hlong hopens _⟩
  | nil =>
    rw [List.cons_append, hfront]
    by_cases hc : '/' = c
    swap
    · simp [stripFront, hc]
    subst hc
    have hs : s = [] := by
      by_contra hne
      exact h.front_ne_slash hx hne (by rw [List.cons_append, hfront])
    refine ⟨by rw [hs]; rfl, ?_⟩
    cases t with
    | nil => rfl
    | cons e t =>
      have he : d ≠ e := by
        rintro rfl
        cases hd.symm.trans (h.blank d rfl)
      simp [stripFront, he]

theorem takesSame_lineComment (hline : u ++ s = [] → k ≠ .oneLineComment) :
    (seq (text ['/', '/']) (run fun c => c != '\n')).TakesSame (w ++ (u ++ s)) (w ++ (u ++ t)) := by
  rcases h.stripFront_slash hx '/' rfl with ⟨hs, ht⟩ | ⟨r, hr⟩
  · exact .of_none (by simp [split, hs]) (by simp [split, ht])
  have htext : w ++ (u ++ s) = '/' :: '/' :: (r ++ s) := by
    rw [← List.append_assoc, hr]
    rfl
  have hfirst := (firstMatch_slash ('/' :: (r ++ s))).trans (firstMatch_cons rfl)
  rw [← htext] at hfirst
  obtain ⟨hk, -, hrest⟩ := hx.eq_of_firstMatch hfirst
  have hend : ∀ c ∈ (u ++ s).head?, (c != '\n') = false := by
    rw [hrest]
    exact head_of_split_run (s := r ++ s) rfl
  -- the comment ends with its line, before the place where the texts part
  cases u with
  | nil =>
    cases s with
    | nil => exact absurd hk (hline rfl)
    | cons c s =>
      obtain rfl := h.slash c rfl
      cases hend '/' rfl
  | cons c u =>
    obtain rfl : c = '\n' := by simpa using hend c rfl
    exact .of_endsAt (by simp [EndsAt]) (by simp [EndsAt]) w

theorem takesSame_starComment : starComment.TakesSame (w ++ (u ++ s)) (w ++ (u ++ t)) := by
  rcases h.stripFront_slash hx '*' rfl with ⟨hs, ht⟩ | ⟨r, hr⟩
  · exact .of_none (by simp [starComment, split, hs]) (by simp [starComment, split, ht])
  have htext (z : List Char) : w ++ (u ++ z) = '/' :: '*' :: (r ++ z) := by
    rw [← List.append_assoc, hr]
    rfl
  cases hclose : splitThrough ['*', '/'] (r ++ s) with
  | some m =>
    obtain ⟨v, rest⟩ := m
    have hs : starComment.split (w ++ (u ++ s)) = some ('/' :: '*' :: v, rest) := by
      rw [htext, split_starComment, hclose]
      rfl
    obtain ⟨-, rfl, rfl⟩ := hx.eq_of_firstMatch (firstMatch_of_starComment hs)
    obtain rfl : r = v ++ u := by simpa using hr.symm
    rw [List.append_assoc] at hclose
    have ht : starComment.split ('/' :: '*' :: v ++ (u ++ t)) = some ('/' :: '*' :: v, u ++ t) := by
      rw [htext, split_starComment, List.append_assoc, splitThrough_congr hclose]
      rfl
    exact .of_some hs ht
  | none =>
    have hopen : splitThrough ['*', '/'] (r ++ t) = none := by
      rw [← Option.not_isSome_iff_eq_none, isSome_splitThrough] at hclose ⊢
      exact fun hin => hclose (h.comment r hin)
    exact .of_none (by rw [htext, split_starComment, hclose]; rfl)
      (by rw [htext, split_starComment, hopen]; rfl)

theorem takesSame_quoted : quoted.TakesSame (w ++ (u ++ s)) (w ++ (u ++ t)) := by
  obtain ⟨c, w, rfl⟩ := List.exists_cons_of_ne_nil (ne_nil_of_cutsOff hx)
  by_cases hc : '"' = c
  swap
  · exact .of_refuses (by simp [quoted, Refuses, hc]) _ _
  subst hc
  cases hclose : quotedRest.split (w ++ (u ++ s)) with
  | some m =>
    obtain ⟨v, rest⟩ := m
    have hs : quoted.split ('"' :: (w ++ (u ++ s))) = some ('"' :: v, rest) := by
      rw [split_quoted, hclose]
      rfl
    obtain ⟨-, hw, rfl⟩ := hx.eq_of_firstMatch (firstMatch_of_quoted hs)
    obtain rfl := (List.cons.inj hw).2
    have ht : quoted.split ('"' :: w ++ (u ++ t)) = some ('"' :: w, u ++ t) := by
      rw [List.cons_append, split_quoted, split_quotedRest_congr hclose]
      rfl
    exact .of_some hs ht
  | none =>
    have hopen : quotedRest.split (w ++ (u ++ t)) = none := by
      rw [← Option.not_isSome_iff_eq_none, isSome_split_quotedRest, ← List.append_assoc] at hclose ⊢
      exact fun hin => hclose (closesString_append h.string (w ++ u) false hin)
    exact .of_none (by rw [List.cons_append, split_quoted, hclose]; rfl)
      (by rw [List.cons_append, split_quoted, hopen]; rfl)

theorem takesSame_slashEquals :
    (text ['/', '=']).TakesSame (w ++ (u ++ s)) (w ++ (u ++ t)) := by
  rcases h.stripFront_slash hx '=' rfl with ⟨hs, ht⟩ | ⟨r, hr⟩
  · exact .of_none (by simp [split, hs]) (by simp [split, ht])
  · rw [← List.append_assoc, ← List.append_assoc, hr]
    exact .of_some (Pattern.split_text ['/', '='] _) (Pattern.split_text ['/', '='] _)

theorem takesSame_escapedName : escapedName.TakesSame (w ++ (u ++ s)) (w ++ (u ++ t)) := by
  have hblank : ∀ c ∈ t.head?, escapedName.EndsAt c = true := fun c hc => by
    have hcases : c = ' ' ∨ c = '\t' ∨ c = '\r' ∨ c = '\x0c' := by
      simpa [isSpace, or_assoc] using h.blank c hc
    rcases hcases with rfl | rfl | rfl | rfl <;> decide
  cases s with
  | nil =>
    rw [← List.append_assoc, ← List.append_assoc]
    exact .of_endsAt (by simp) hblank _
  | cons c s =>
  obtain rfl := h.slash c rfl
  obtain ⟨c, w, rfl⟩ := List.exists_cons_of_ne_nil (ne_nil_of_cutsOff hx)
  by_cases hc : '\\' = c
  swap
  · exact .of_refuses (by simp [escapedName, Refuses, hc]) _ _
  subst hc
  have htaken {d : Char} (hd : isBlank d = false) (z : List Char) :
      firstMatch lexicon.classes ('\\' :: d :: z) = some (.escapedIdentifier,
        '\\' :: d :: z.takeWhile (!isBlank ·), z.dropWhile (!isBlank ·)) := by
    rw [firstMatch_backslash]
    exact firstMatch_cons (by simp [escapedName, run1, split, stripFront, hd])
  cases hfront : w ++ u with
  | nil =>
    -- the slash would be part of the name
    obtain ⟨rfl, rfl⟩ := List.append_eq_nil_iff.mp hfront
    obtain ⟨-, hw, -⟩ := hx.eq_of_firstMatch (htaken (by decide) s)
    simp at hw
  | cons d front =>
    have htext (z : List Char) : '\\' :: w ++ (u ++ z) = '\\' :: d :: (front ++ z) := by
      rw [List.cons_append, ← List.append_assoc, hfront]
      rfl
    by_cases hd : isBlank d = true
    · rw [htext, htext]
      exact .of_none (split_escapedName_blank hd _) (split_escapedName_blank hd _)
    · have hfirst := htaken (Bool.eq_false_iff.mpr hd) (front ++ '/' :: s)
      rw [← htext] at hfirst
      obtain ⟨-, -, hrest⟩ := hx.eq_of_firstMatch hfirst
      have hend : ∀ c ∈ (u ++ '/' :: s).head?, (!isBlank c) = false := by
        rw [hrest]
        exact head_of_split_run (s := front ++ '/' :: s) rfl
      cases u with
      | nil => cases hend '/' rfl
      | cons e u =>
        have he : isBlank e = true := by simpa using hend e rfl
        have hne : e ≠ '\\' := by
          rintro rfl
          cases he
        exact .of_endsAt (by simp [escapedName, run1, EndsAt, he, hne])
          (by simp [escapedName, run1, EndsAt, he, hne]) _

/-- **The tokens before the place where texts part** are the same in both texts. -/
theorem cutsOff (hspace : ∀ c ∈ w.head?, isSpace c = false)
    (hline : u ++ s = [] → k ≠ .oneLineComment)
    (hnumber : ∀ v r, basedPattern.split (w ++ u ++ t) = some (v, r) → v <+: w ++ u) :
    lexicon.CutsOff (w ++ (u ++ t)) [(k, w)] (u ++ t) := by
  refine hx.of_takesSame fun cls hcls => ?_
  have hends {a : Pattern} (ha : ['/', ' ', '\t', '\r', '\x0c'].all a.EndsAt = true) :
      a.TakesSame (w ++ (u ++ s)) (w ++ (u ++ t)) := by
    rw [← List.append_assoc, ← List.append_assoc]
    exact h.takesSame_of_endsAt ha _
  rcases List.mem_append.mp hcls with h' | h'
  · simp only [List.mem_cons, List.not_mem_nil, or_false] at h'
    rcases h' with h' | h' | h' | h' | h' | h' | h' | h' | h' | h' | h' | h' | h' | h' <;> subst h'
    case inr.inr.inl =>
      obtain ⟨c, w, rfl⟩ := List.exists_cons_of_ne_nil (ne_nil_of_cutsOff hx)
      exact .of_refuses (by simp [run1, Refuses, hspace c rfl]) _ _
    case inr.inr.inr.inr.inl => exact h.takesSame_lineComment hx hline
    case inr.inr.inr.inr.inr.inl => exact h.takesSame_starComment hx
    case inr.inr.inr.inr.inr.inr.inl => exact h.takesSame_quoted hx
    case inr.inr.inr.inr.inr.inr.inr.inr.inl => exact h.takesSame_escapedName hx
    case inr.inr.inr.inr.inr.inr.inr.inr.inr.inl =>
      rw [← List.append_assoc, ← List.append_assoc]
      exact h.takesSame_basedPattern hnumber
    all_goals exact hends (by decide)
  · obtain ⟨⟨spelling, kind⟩, hop, rfl⟩ := List.mem_map.mp h'
    have hall : ∀ op ∈ operators,
        ['/', ' ', '\t', '\r', '\x0c'].all (text op.1).EndsAt = true ∨
          op.1 = ['/'] ∨ op.1 = ['/', '='] := by decide
    rcases hall _ hop with h' | rfl | rfl
    · exact hends h'
    · exact takesSame_slash hx _
    · exact h.takesSame_slashEquals hx

end GivesWay

end

/-! ### What the grammar sees -/

section

variable {b s t : List Char}

theorem firstMatch_space {c : Char} (hc : isSpace c = true) (s : List Char) :
    firstMatch lexicon.classes (c :: s) =
      some (.whitespace, c :: s.takeWhile isSpace, s.dropWhile isSpace) := by
  have hfront : ∀ cls ∈ lexicon.classes.take 2, cls.1.Refuses c = true := by
    have hcases : c = ' ' ∨ c = '\t' ∨ c = '\r' ∨ c = '\x0c' := by
      simpa [isSpace, or_assoc] using hc
    rcases hcases with rfl | rfl | rfl | rfl <;> decide
  exact (firstMatch_of_refuses hfront).trans (firstMatch_cons (split_one_seq hc rfl))

theorem visiblePieces_space {c : Char} (hc : isSpace c = true) (s : List Char) :
    visiblePieces (c :: s) = visiblePieces s := by
  have hdrop {c : Char} (hc : isSpace c = true) (s : List Char) :
      visiblePieces (c :: s) = visiblePieces (s.dropWhile isSpace) :=
    visiblePieces_of_hidden (pieces_cons (firstMatch_space hc s)) rfl
  rw [hdrop hc]
  cases s with
  | nil => rfl
  | cons d s =>
    by_cases hd : isSpace d = true
    · rw [hdrop hd, List.dropWhile_cons_of_pos hd]
    · rw [List.dropWhile_cons_of_neg hd]

/-- **Blanks and line feeds are not seen.** -/
theorem visiblePieces_blanks (hb : ∀ c ∈ b, isSpace c = true ∨ c = '\n') (t : List Char) :
    visiblePieces (b ++ t) = visiblePieces t := by
  induction b with
  | nil => rfl
  | cons c b ih =>
    obtain ⟨hc, hb⟩ := List.forall_mem_cons.mp hb
    rw [← ih hb, List.cons_append]
    rcases hc with hc | rfl
    · exact visiblePieces_space hc _
    · exact visiblePieces_of_hidden (pieces_cons rfl) rfl

theorem visiblePieces_of_cutsOff {k : SourceKind} {w : List Char}
    (hx : lexicon.CutsOff (w ++ s) [(k, w)] s) :
    visiblePieces (w ++ s) = [(k, w)].filter (fun x => !x.1.isHidden) ++ visiblePieces s := by
  rw [visiblePieces, visiblePieces, sourcePieces, hx.pieces_eq, List.filter_append]
  rfl

/-- A comment that goes up to the end of the text is not seen. -/
theorem visiblePieces_lineComment {v : List Char} (hv : '\n' ∉ v) :
    visiblePieces ('/' :: '/' :: v) = [] := by
  have hfirst := (firstMatch_slash ('/' :: v)).trans (firstMatch_cons rfl)
  have hrest : (v.dropWhile fun c => c != '\n') = [] := by
    rw [List.dropWhile_eq_nil_iff]
    exact fun c hc => bne_iff_ne.mpr fun h => hv (h ▸ hc)
  refine (visiblePieces_of_hidden (pieces_cons hfirst) rfl).trans ?_
  exact congrArg visiblePieces hrest


/-- No number goes on over blanks at the end of a text, since it ends in a figure. -/
theorem prefix_of_split_append_blanks (hb : ∀ c ∈ b, isSpace c = true) {v r : List Char}
    (h : basedPattern.split (s ++ b) = some (v, r)) : v <+: s := by
  obtain ⟨n, rfl⟩ := exists_basedSpelling h
  rcases List.append_eq_append_iff.mp (split_eq_append h) with ⟨z, hz, hr⟩ | ⟨z, hz, -⟩
  · cases hlast : z.getLast? with
    | none =>
      obtain rfl := List.getLast?_eq_none_iff.mp hlast
      exact ⟨[], by simpa using hz⟩
    | some c =>
      have hne : z ≠ [] := by
        rintro rfl
        cases hlast
      have hdigits := congrArg List.getLast? hz
      rw [List.getLast?_append_of_ne_nil _ hne, hlast, n.getLast?_text] at hdigits
      have hall : ∀ c ∈ figures, isSpace c = false := List.all_iff_forall_prop.mp (by decide)
      have hfigure := hall c (n.mem_digits c (List.mem_of_getLast? hdigits))
      cases hfigure.symm.trans (hb c (hr ▸ List.mem_append_left r (List.mem_of_getLast? hlast)))
  · exact ⟨z, hz.symm⟩

/-- **Blanks at the end of a text are not seen.** -/
theorem visiblePieces_append_blanks (hb : ∀ c ∈ b, isSpace c = true) (s : List Char) :
    visiblePieces (s ++ b) = visiblePieces s := by
  have hgives := GivesWay.of_blanks hb
  induction hn : s.length using Nat.strong_induction_on generalizing s with
  | _ n ih =>
    cases s with
    | nil => simpa using visiblePieces_blanks (fun c hc => .inl (hb c hc)) []
    | cons c s =>
      by_cases hc : isSpace c = true
      · rw [List.cons_append, visiblePieces_space hc, visiblePieces_space hc]
        exact ih s.length (by rw [← hn]; exact Nat.lt_succ_self _) s rfl
      obtain ⟨k, w, r, hcut⟩ := lexicon.exists_cutsOff c s
      have htext : c :: s = c :: w ++ r := by simpa using hcut.text_eq
      rw [htext] at hcut ⊢
      by_cases hline : r = [] ∧ k = .oneLineComment
      · -- a comment up to the end of the text takes the blanks
        obtain ⟨rfl, rfl⟩ := hline
        obtain ⟨v, hv, hfree, -⟩ := exists_of_oneLineComment hcut
        have hblanks : '\n' ∉ v ++ b := fun hc => by
          rcases List.mem_append.mp hc with hc | hc
          · exact hfree hc
          · cases hb _ hc
        rw [List.append_nil, hv, visiblePieces_lineComment hfree]
        exact visiblePieces_lineComment hblanks
      have hkept := hgives.cutsOff (u := r) (by rwa [List.append_nil]) (by simpa using hc)
        (fun hr hk => hline ⟨by simpa using hr, hk⟩) fun _ _ => prefix_of_split_append_blanks hb
      have hless : r.length < n := by
        rw [← hn, htext, List.length_append, List.length_cons]
        omega
      have hseen := visiblePieces_of_cutsOff hcut
      have hseen' := visiblePieces_of_cutsOff hkept
      rw [List.append_assoc]
      exact hseen'.trans ((congrArg _ (ih r.length hless r rfl)).trans hseen.symm)

end

/-! ### Texts without some of their comments -/

/-- **Is a text another one with blanks for some of its comments?** A blank is put for a comment,
and behind it more blanks and line feeds. There has to be a line feed if the comment has one. -/
inductive Uncommented : List Char → List Char → Prop
  | nil : Uncommented [] []
  | token {k : SourceKind} {w s t : List Char} (hx : lexicon.CutsOff (w ++ s) [(k, w)] s)
    (h : Uncommented s t) : Uncommented (w ++ s) (w ++ t)
  | comment {k : SourceKind} {w b s t : List Char} (hx : lexicon.CutsOff (w ++ s) [(k, w)] s)
    (hk : k = .blockComment ∨ k = .oneLineComment) (hb : ∀ c ∈ b, c = ' ' ∨ c = '\n')
    (hfeed : '\n' ∈ w → '\n' ∈ b) (h : Uncommented s t) : Uncommented (w ++ s) (' ' :: b ++ t)

/-- **Blanks do not close a string**, and a line feed among them leaves it open. -/
theorem closesString_blanks {b t : List Char} (hb : ∀ c ∈ b, c = ' ' ∨ c = '\n')
    (h : closesString false (b ++ t) = true) : '\n' ∉ b ∧ closesString false t = true := by
  induction b with
  | nil => exact ⟨List.not_mem_nil, h⟩
  | cons c b ih =>
    obtain ⟨hc, hrest⟩ := List.forall_mem_cons.mp hb
    rcases hc with rfl | rfl
    · obtain ⟨hn, ht⟩ := ih hrest (by simpa [closesString] using h)
      exact ⟨by simpa using hn, ht⟩
    · simp [closesString] at h

/-- A string goes on behind a text without line feeds as if it began there, if it does not end in
it. The text must not end in a backslash. -/
theorem closesString_of_rest {v s : List Char} {d : Char} (hv : '\n' ∉ v ++ [d]) (hd : d ≠ '\\')
    (h : closesString false s = true) (e : Bool) : closesString e (v ++ d :: s) = true := by
  induction v generalizing e with
  | nil =>
    have hn : d ≠ '\n' := by simpa [eq_comm] using hv
    cases e with
    | true => exact h
    | false => simp [closesString, hn, beq_false_of_ne hd, h]
  | cons c v ih =>
    rw [List.cons_append, List.mem_cons, not_or] at hv
    cases e with
    | true => exact ih hv.2 false
    | false => simp [closesString, ih hv.2, Ne.symm hv.1]

namespace Uncommented

variable {s t : List Char}

/-- **A comment is closed** in the text with comments if it is closed without them. -/
theorem closesComment (h : Uncommented s t) (v : List Char) (ht : ['*', '/'] <:+: v ++ t) :
    ['*', '/'] <:+: v ++ s := by
  induction h generalizing v with
  | nil => exact ht
  | token _ _ ih =>
    rw [← List.append_assoc] at ht ⊢
    exact ih _ ht
  | @comment _ w b s t _ _ hb _ _ ih =>
    rcases closing_infix_append (by simp) ht with hv | hrest
    · exact hv.trans (List.prefix_append v _).isInfix
    · have hstar : '*' ∉ ' ' :: b := fun hc => by
        rcases List.mem_cons.mp hc with hc | hc
        · cases hc
        · rcases hb _ hc with hc | hc <;> cases hc
      have hs : ['*', '/'] <:+: s := ih [] (closing_infix_of_append hstar hrest)
      exact hs.trans ((List.suffix_append w s).trans (List.suffix_append v _)).isInfix

/-- **A string is closed** in the text with comments if it is closed without them. -/
theorem closesString (h : Uncommented s t) (e : Bool) :
    Verilog.closesString e t = true → Verilog.closesString e s = true := by
  induction h generalizing e with
  | nil => exact id
  | @token _ w s t _ _ ih => exact closesString_append ih w e
  | @comment k w b s t hx hk hb hfeed _ ih =>
    intro hclosed
    have hblanks : Verilog.closesString false (b ++ t) = true := by
      cases e with
      | true => exact hclosed
      | false => simpa [Verilog.closesString] using hclosed
    obtain ⟨hn, ht⟩ := closesString_blanks hb hblanks
    have hfree : '\n' ∉ w := fun hc => hn (hfeed hc)
    rcases hk with rfl | rfl
    · obtain ⟨v, hv⟩ := exists_of_blockComment hx
      have hsplit : w = ('/' :: '*' :: v ++ ['*']) ++ ['/'] := by simp [hv]
      rw [hsplit, List.append_assoc]
      exact closesString_of_rest (hsplit ▸ hfree) (by decide) (ih false ht) e
    · -- the comment goes up to the end of the line, and so would the string
      obtain ⟨v, -, -, hend⟩ := exists_of_oneLineComment hx
      have hs := ih false ht
      cases s with
      | nil => cases hs
      | cons c s =>
        obtain rfl := hend c rfl
        cases hs

/-- **Up to the first comment that has gone** the texts are the same. -/
theorem parts (h : Uncommented s t) :
    s = t ∨ ∃ u s' t', s = u ++ s' ∧ t = u ++ ' ' :: t' ∧ s' ≠ [] ∧ GivesWay s' (' ' :: t') := by
  induction h with
  | nil => exact .inl rfl
  | @token _ w _ _ _ _ ih =>
    rcases ih with rfl | ⟨u, s', t', rfl, rfl, hne, hgives⟩
    · exact .inl rfl
    · exact .inr ⟨w ++ u, s', t', by simp, by simp, hne, hgives⟩
  | @comment k w b s t hx hk hb hfeed h _ =>
    have hall : Uncommented (w ++ s) (' ' :: b ++ t) := .comment hx hk hb hfeed h
    obtain ⟨v, rfl⟩ : ∃ v, w = '/' :: v := by
      rcases hk with rfl | rfl
      · obtain ⟨v, hv⟩ := exists_of_blockComment hx
        exact ⟨_, hv⟩
      · obtain ⟨v, hv, -⟩ := exists_of_oneLineComment hx
        exact ⟨_, hv⟩
    refine .inr ⟨[], _, b ++ t, rfl, rfl, List.cons_ne_nil _ _, ?_, ?_, hall.closesComment,
      hall.closesString⟩
    · simp
    · simp [isSpace]

/-- A number without blanks does not go past one. -/
theorem prefix_of_split_spared {u v r : List Char}
    (hspared : ∀ z ∈ visiblePieces (u ++ ' ' :: t), z.1 = .basedNumber → ' ' ∉ z.2)
    (h : basedPattern.split (u ++ ' ' :: t) = some (v, r)) : v <+: u := by
  obtain ⟨b, rfl⟩ := exists_basedSpelling h
  have hseen := b.visiblePieces_append (not_figure_of_split h)
  rw [← split_eq_append h] at hseen
  have hfree : ' ' ∉ b.text := hspared _ (hseen ▸ List.mem_cons_self) rfl
  rcases List.append_eq_append_iff.mp (split_eq_append h) with ⟨z, hz, hr⟩ | ⟨z, hz, -⟩
  · cases z with
    | nil => exact ⟨[], by simpa using hz⟩
    | cons c z =>
      obtain ⟨rfl, -⟩ := List.cons.inj hr
      exact absurd (hz ▸ by simp) hfree
  · exact ⟨z, hz.symm⟩

/-- **A text is read as it would be with blanks for its comments**, if no number with a base has a
blank in it then. -/
theorem visiblePieces_eq (h : Uncommented s t)
    (hspared : ∀ z ∈ visiblePieces t, z.1 = .basedNumber → ' ' ∉ z.2) :
    visiblePieces t = visiblePieces s := by
  induction h with
  | nil => rfl
  | @token k w s t hx h ih =>
    by_cases hspace : ∀ c ∈ w.head?, isSpace c = false
    · have hkept : lexicon.CutsOff (w ++ t) [(k, w)] t := by
        rcases h.parts with rfl | ⟨u, s, t, rfl, rfl, hne, hgives⟩
        · exact hx
        · refine hgives.cutsOff hx hspace (fun hnil => ?_) fun v r hv => ?_
          · exact absurd (List.append_eq_nil_iff.mp hnil).2 hne
          · rw [← List.append_assoc] at hspared
            exact prefix_of_split_spared hspared hv
      have ht := visiblePieces_of_cutsOff hkept
      rw [ht, visiblePieces_of_cutsOff hx,
        ih fun z hz => hspared z (ht ▸ List.mem_append_right _ hz)]
    · obtain ⟨c, hc, hblank⟩ : ∃ c, w.head? = some c ∧ isSpace c = true := by
        simpa using hspace
      obtain ⟨v, rfl⟩ := List.head?_eq_some_iff.mp hc
      have hall : ∀ d ∈ c :: v, isSpace d = true ∨ d = '\n' := by
        obtain ⟨-, heq, -⟩ := hx.eq_of_firstMatch (firstMatch_space hblank (v ++ s))
        rw [heq, List.forall_mem_cons]
        exact ⟨.inl hblank, fun d hd => .inl (List.mem_takeWhile_imp hd)⟩
      rw [visiblePieces_blanks hall] at hspared ⊢
      rw [visiblePieces_blanks hall, ih hspared]
  | @comment k w b s t hx hk hb _ _ ih =>
    have hblank : ∀ c ∈ ' ' :: b, isSpace c = true ∨ c = '\n' := by
      refine List.forall_mem_cons.mpr ⟨.inl rfl, fun c hc => (hb c hc).imp_left ?_⟩
      rintro rfl
      rfl
    rw [visiblePieces_blanks hblank] at hspared ⊢
    rw [visiblePieces_of_cutsOff hx, ih hspared]
    rcases hk with rfl | rfl <;> rfl

end Uncommented

end Verilog
