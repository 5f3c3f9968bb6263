import Verilog.Proofs.Directive.Definition
import Verilog.Proofs.Lexing.LineEnds

/-!
# Two lexicons in step

The lexicon of directives and that of source text cut the same text into different tokens. Both find
a name where it begins if they begin a token there, and they lose step only at numbers, marks, names
with a dollar sign and operators of several characters. Then one of them is ahead of the other by
the end of one token (`Lexicon.Through`). In this end nothing begins that one of them might take for
a comment, a string or an escaped name (`isOpener`), so the other cannot lose its way there, and
they come in step again.

What is ahead may hide a name from the lexicon behind. But a name that is not hidden in this way is
a name to both (`Lexicon.Kindred.told`). The two lexicons are such a pair on all texts without macro
uses (`kindred`).
-/

namespace Verilog

open Pattern

/-- May something begin with this character that goes on past the token of another lexicon, or that
the preprocessor replaces? -/
def isOpener (c : Char) : Bool := ['/', '"', '\\', '\n', backquote].contains c

namespace Pattern

/-- Does a pattern begin with an opener, to judge by its parts? -/
def IsOpened : Pattern → Bool
  | text (c :: _) => isOpener c
  | seq a _ => a.IsOpened
  | text [] | one _ | run _ | alt _ _ | opt _ | many _ | through _ | ahead _ => false

theorem refuses_of_isOpened {c : Char} (hc : isOpener c = false) {a : Pattern}
    (ha : a.IsOpened = true) : a.Refuses c = true := by
  induction a with
  | text t =>
    cases t with
    | nil => cases ha
    | cons d t =>
      have hd : d ≠ c := (ne_of_class ha hc).symm
      simpa [Refuses] using hd
  | seq a b iha _ => rw [Refuses, iha ha, Bool.true_or]
  | one _ | run _ | alt _ _ | opt _ | many _ | through _ | ahead _ => cases ha

end Pattern

namespace Lexicon

variable {κ κ' : Type}

/-! ### Pieces and their places -/

/-- A piece of a text with the place where it begins. -/
structure Piece (κ : Type) where
  start : Nat
  kind : κ
  text : List Char

namespace Piece

/-- Is the piece a name, to judge by its first character? -/
def IsName (x : Piece κ) : Prop := x.text.head?.any isNameStart = true

/-- Does the piece begin with no opener? -/
def IsPlain (x : Piece κ) : Prop := x.text.head?.any isOpener = false

/-- Does the piece begin before a place and end behind it? -/
def Covers (x : Piece κ) (p : Nat) : Prop := x.start < p ∧ p < x.start + x.text.length

end Piece

/-- Pieces with the places where they begin, the first of them at a given place. -/
def laid (p : Nat) : List (κ × List Char) → List (Piece κ)
  | [] => []
  | (kind, lexeme) :: rest => ⟨p, kind, lexeme⟩ :: laid (p + lexeme.length) rest

/-- The pieces of a text that begins at a place. -/
def piecesFrom (lexicon : Lexicon κ) (p : Nat) (s : List Char) : List (Piece κ) :=
  laid p (lexicon.pieces s.length s)

theorem laid_append (p : Nat) (xs ys : List (κ × List Char)) :
    laid p (xs ++ ys) = laid p xs ++ laid (p + (xs.flatMap (·.2)).length) ys := by
  induction xs generalizing p with
  | nil => rfl
  | cons x xs ih =>
    rw [List.cons_append, laid, laid, ih, List.flatMap_cons, List.length_append, Nat.add_assoc]
    rfl

theorem le_start_of_mem_laid {p : Nat} {xs : List (κ × List Char)} {x : Piece κ}
    (hx : x ∈ laid p xs) : p ≤ x.start := by
  induction xs generalizing p with
  | nil => exact absurd hx List.not_mem_nil
  | cons y xs ih =>
    obtain ⟨kind, w⟩ := y
    rw [laid, List.mem_cons] at hx
    rcases hx with rfl | hx
    · exact Nat.le_refl p
    · exact (Nat.le_add_right _ _).trans (ih hx)

/-- The names among pieces, with the places where they begin. -/
def names (p : Nat) (xs : List (κ × List Char)) : List (Nat × List Char) :=
  ((laid p xs).filter fun x => x.text.head?.any isNameStart).map fun x => (x.start, x.text)

theorem mem_names {p : Nat} {xs : List (κ × List Char)} {x : Piece κ} (hx : x ∈ laid p xs)
    (hname : x.IsName) : (x.start, x.text) ∈ names p xs :=
  List.mem_map_of_mem (f := fun x : Piece κ => (x.start, x.text))
    (List.mem_filter.mpr ⟨hx, hname⟩)

theorem exists_of_mem_names {p : Nat} {xs : List (κ × List Char)} {n : Nat × List Char}
    (hn : n ∈ names p xs) : ∃ x ∈ laid p xs, x.start = n.1 ∧ x.text = n.2 := by
  obtain ⟨x, hx, rfl⟩ := List.mem_map.mp hn
  exact ⟨x, (List.mem_filter.mp hx).1, rfl, rfl⟩

/-- **What a lexicon cuts off a text**, piece by piece, and what it leaves. -/
inductive CutsOff (lexicon : Lexicon κ) :
    List Char → List (κ × List Char) → List Char → Prop where
  | nil (s : List Char) : CutsOff lexicon s [] s
  | found {kind : κ} {s w r t : List Char} {xs : List (κ × List Char)} :
    firstMatch lexicon.classes s = some (kind, w, r) → CutsOff lexicon r xs t →
    CutsOff lexicon s ((kind, w) :: xs) t
  | other {c : Char} {s t : List Char} {xs : List (κ × List Char)} :
    firstMatch lexicon.classes (c :: s) = none → CutsOff lexicon s xs t →
    CutsOff lexicon (c :: s) ((lexicon.other, [c]) :: xs) t

namespace CutsOff

variable {lexicon : Lexicon κ} {s t : List Char} {xs : List (κ × List Char)}

theorem pieces_eq (h : lexicon.CutsOff s xs t) :
    lexicon.pieces s.length s = xs ++ lexicon.pieces t.length t := by
  induction h with
  | nil s => rfl
  | found hfound _ ih => rw [pieces_cons hfound, ih, List.cons_append]
  | other hnone _ ih => rw [pieces_cons_of_none hnone, ih, List.cons_append]

theorem text_eq (h : lexicon.CutsOff s xs t) : s = xs.flatMap (·.2) ++ t := by
  induction h with
  | nil s => rfl
  | found hfound _ ih =>
    rw [(firstMatch_spec hfound).1, List.flatMap_cons, List.append_assoc, ← ih]
  | other _ _ ih =>
    rw [List.flatMap_cons, List.append_assoc, ← ih, List.singleton_append]

theorem piecesFrom_eq (h : lexicon.CutsOff s xs t) (p : Nat) :
    lexicon.piecesFrom p s =
      laid p xs ++ lexicon.piecesFrom (p + (xs.flatMap (·.2)).length) t := by
  rw [piecesFrom, h.pieces_eq, laid_append]
  rfl

/-- One piece is what the first match takes, or a character where nothing matches. -/
theorem cases_singleton {kind : κ} {w : List Char} (h : lexicon.CutsOff s [(kind, w)] t) :
    firstMatch lexicon.classes s = some (kind, w, t) ∨
      firstMatch lexicon.classes s = none ∧ kind = lexicon.other ∧ ∃ c, w = [c] := by
  cases h with
  | found hfound hrest =>
    cases hrest
    exact .inl hfound
  | other hnone _ => exact .inr ⟨hnone, rfl, _, rfl⟩

end CutsOff

/-- From every text a piece is cut off. -/
theorem exists_cutsOff (lexicon : Lexicon κ) (c : Char) (s : List Char) :
    ∃ kind w r, lexicon.CutsOff (c :: s) [(kind, c :: w)] r := by
  cases h : firstMatch lexicon.classes (c :: s) with
  | none => exact ⟨lexicon.other, [], s, .other h (.nil s)⟩
  | some m =>
    obtain ⟨kind, w, r⟩ := m
    obtain ⟨heq, hne, -⟩ := firstMatch_spec h
    obtain ⟨d, w, rfl⟩ := List.exists_cons_of_ne_nil hne
    obtain ⟨rfl, -⟩ := List.cons.inj heq
    exact ⟨kind, w, r, .found h (.nil r)⟩

/-! ### A lexicon that is ahead of another -/

/-- A text is the end of a piece among those given, at least behind the first character of it if the
text begins like a name. No opener is in it. -/
structure Overhang (S : List (Piece κ)) (p : Nat) (x : List Char) : Prop where
  nonempty : x ≠ []
  plain : ∀ d ∈ x, isOpener d = false
  piece : ∃ y ∈ S, y.IsPlain ∧ y.start ≤ p ∧ p + x.length = y.start + y.text.length ∧
    (x.head?.any isNameStart = true → y.start < p)

/-- **How far two lexicons are through a text**: equally far, or one of them is ahead. -/
inductive Through (D : List (Piece κ)) (S : List (Piece κ')) :
    Nat → List Char → Nat → List Char → Prop where
  | even (p : Nat) (s : List Char) : Through D S p s p s
  | behind {p : Nat} {x : List Char} (h : Overhang S p x) (s : List Char) :
    Through D S p (x ++ s) (p + x.length) s
  | ahead {p : Nat} {x : List Char} (h : Overhang D p x) (s : List Char) :
    Through D S (p + x.length) s p (x ++ s)

section

variable {D : List (Piece κ)} {S : List (Piece κ')} {p q : Nat} {u v x w r s : List Char} {kind : κ}

theorem Through.symm (h : Through D S p u q v) : Through S D q v p u := by
  cases h with
  | even => exact .even _ _
  | behind h => exact .ahead h _
  | ahead h => exact .behind h _

/-- What is left of the end of a piece. -/
theorem Overhang.rest {a : List Char} (h : Overhang S p (w ++ a)) (hw : w ≠ []) (ha : a ≠ []) :
    Overhang S (p + w.length) a := by
  obtain ⟨y, hy, hplain, hstart, hend, -⟩ := h.piece
  have hlen := List.length_pos_iff.mpr hw
  refine ⟨ha, fun d hd => h.plain d (List.mem_append_right _ hd), y, hy, hplain, by omega, ?_,
    fun _ => by omega⟩
  rw [← hend, List.length_append, Nat.add_assoc]

/-- What of a piece goes past an overhang. -/
theorem Overhang.of_piece {a : List Char} (hD : ⟨p, kind, x ++ a⟩ ∈ D) (hx : x ≠ []) (ha : a ≠ [])
    (hplain : ∀ d ∈ x ++ a, isOpener d = false) : Overhang D (p + x.length) a := by
  have hlen := List.length_pos_iff.mpr hx
  obtain ⟨c, x, rfl⟩ := List.exists_cons_of_ne_nil hx
  refine ⟨ha, fun d hd => hplain d (List.mem_append_right _ hd), _, hD, ?_, Nat.le_add_right _ _,
    ?_, fun _ => ?_⟩
  · simpa [Piece.IsPlain] using hplain c List.mem_cons_self
  · rw [List.length_append, Nat.add_assoc]
  · exact Nat.lt_add_of_pos_right hlen

/-- **The lexicon behind cuts a piece off**, which ends in the overhang or goes past it. -/
theorem Overhang.step (h : Overhang S p x) (heq : w ++ r = x ++ s) (hw : w ≠ [])
    (hplain : ∀ d ∈ w, isOpener d = false) (hD : ⟨p, kind, w⟩ ∈ D) :
    Through D S (p + w.length) r (p + x.length) s := by
  rcases List.append_eq_append_iff.mp heq with ⟨a, rfl, rfl⟩ | ⟨a, rfl, rfl⟩
  · by_cases ha : a = []
    · subst ha
      simpa using Through.even _ _
    · have := Through.behind (D := D) (h.rest hw ha) s
      rwa [Nat.add_assoc, ← List.length_append] at this
  · by_cases ha : a = []
    · subst ha
      simpa using Through.even _ _
    · have := Through.ahead (S := S) (Overhang.of_piece hD h.nonempty ha hplain) r
      rwa [Nat.add_assoc, ← List.length_append] at this

end

/-! ### Two lexicons in step -/

/-- Is no opener in a token that begins with none? -/
def KeepsPlain (lexicon : Lexicon κ) : Prop :=
  ∀ cls ∈ lexicon.classes, cls.1.IsOpened = true ∨
    ['/', '"', '\\', '\n', backquote].all cls.1.Excludes = true

instance (lexicon : Lexicon κ) : Decidable lexicon.KeepsPlain :=
  inferInstanceAs (Decidable (∀ cls ∈ lexicon.classes, _))

theorem KeepsPlain.of_cutsOff {lexicon : Lexicon κ} (h : lexicon.KeepsPlain) {c : Char}
    {s w r : List Char} {kind : κ} (hc : isOpener c = false)
    (hcut : lexicon.CutsOff (c :: s) [(kind, w)] r) : ∀ d ∈ w, isOpener d = false := by
  rcases hcut.cases_singleton with hfound | ⟨-, -, d, rfl⟩
  · obtain ⟨-, -, cls, hcls, hsplit, -⟩ := firstMatch_spec hfound
    rcases h cls hcls with hopened | hfree
    · rw [split_of_refuses s _ (refuses_of_isOpened hc hopened)] at hsplit
      cases hsplit
    · intro d hd
      by_contra hopener
      have hmem := List.contains_iff_mem.mp (Bool.not_eq_false _ ▸ hopener)
      exact not_mem_of_excludes (List.all_eq_true.mp hfree d hmem) hsplit hd
  · obtain ⟨rfl, -⟩ : d = c ∧ r = s := by simpa [eq_comm] using hcut.text_eq
    simpa using hc

/-- Two lexicons cut pieces off a text, both up to the same place and with the same names. -/
def Together (A : Lexicon κ) (B : Lexicon κ') (s : List Char) : Prop :=
  ∃ xs ys t, A.CutsOff s xs t ∧ B.CutsOff s ys t ∧ t.length < s.length ∧
    ∀ p, names p xs = names p ys

/-- **Two lexicons are kindred** on certain texts if they go together wherever a name or an opener
begins, and if neither has openers in other tokens. -/
structure Kindred (A : Lexicon κ) (B : Lexicon κ') (Q : List Char → Prop) : Prop where
  rest : ∀ {x s : List Char}, Q (x ++ s) → Q s
  plain_left : A.KeepsPlain
  plain_right : B.KeepsPlain
  together : ∀ {c : Char} {s : List Char}, (isNameStart c = true ∨ isOpener c = true) →
    Q (c :: s) → Together A B (c :: s)

/-- Is a name among the pieces that another lexicon cuts off, or hidden in one of them? -/
def Told (S : List (Piece κ')) (x : Piece κ) : Prop :=
  (∃ y ∈ S, y.start = x.start ∧ y.text = x.text) ∨ ∃ y ∈ S, y.IsPlain ∧ y.Covers x.start

namespace Kindred

variable {A : Lexicon κ} {B : Lexicon κ'} {Q : List Char → Prop}

theorem symm (h : Kindred A B Q) : Kindred B A Q where
  rest := h.rest
  plain_left := h.plain_right
  plain_right := h.plain_left
  together hc hs :=
    have ⟨xs, ys, t, hx, hy, hlt, hnames⟩ := h.together hc hs
    ⟨ys, xs, t, hy, hx, hlt, fun p => (hnames p).symm⟩

/-- **The names of one lexicon are told by the other.** The induction is on what both have still to
cut, wherever they are: the lexicon that is behind goes on. -/
theorem told_through (h : Kindred A B Q) {D : List (Piece κ)} {S : List (Piece κ')} {p q : Nat}
    {u v : List Char} (hthrough : Through D S p u q v) (hu : Q u) (hv : Q v)
    (hD : ∀ x ∈ A.piecesFrom p u, x ∈ D) (hS : ∀ y ∈ B.piecesFrom q v, y ∈ S) :
    ∀ x ∈ A.piecesFrom p u, x.IsName → Told S x := by
  induction hn : u.length + v.length using Nat.strong_induction_on generalizing p q u v with
  | _ n ih =>
    cases hthrough with
    | even =>
      cases u with
      | nil => exact fun x hx => absurd hx List.not_mem_nil
      | cons c s =>
        by_cases hc : isNameStart c = true ∨ isOpener c = true
        · obtain ⟨xs, ys, t, hx, hy, hlt, hnames⟩ := h.together hc hu
          have hlen : (ys.flatMap (·.2)).length = (xs.flatMap (·.2)).length :=
            congrArg List.length (List.append_cancel_right (hy.text_eq.symm.trans hx.text_eq))
          rw [hx.piecesFrom_eq] at hD ⊢
          rw [hy.piecesFrom_eq, hlen] at hS
          simp only [List.mem_append, or_imp, forall_and] at hD hS ⊢
          have ht : Q t := h.rest (hx.text_eq ▸ hu)
          refine ⟨fun x hmem hname => .inl ?_,
            ih _ (by omega) (.even _ t) ht ht hD.2 hS.2 rfl⟩
          obtain ⟨y, hy, hstart, htext⟩ := exists_of_mem_names (hnames p ▸ mem_names hmem hname)
          exact ⟨y, hS.1 y hy, hstart, htext⟩
        · -- no name begins here, so the second lexicon may go first
          rw [not_or, Bool.not_eq_true, Bool.not_eq_true] at hc
          obtain ⟨kind, w, r, hcut⟩ := B.exists_cutsOff c s
          have heq : c :: s = (c :: w) ++ r := by simpa using hcut.text_eq
          rw [hcut.piecesFrom_eq] at hS
          simp only [List.mem_append, or_imp, forall_and] at hS
          have hover : Overhang S p (c :: w) := ⟨List.cons_ne_nil _ _,
            h.plain_right.of_cutsOff hc.2 hcut, _, hS.1 _ List.mem_cons_self,
            by simpa [Piece.IsPlain] using hc.2, Nat.le_refl _, rfl, by simp [hc.1]⟩
          have hlen := congrArg List.length heq
          simp only [List.cons_append, List.length_cons, List.length_append] at hlen hn
          rw [heq] at hD ⊢
          refine ih _ ?_ (.behind hover r) (heq ▸ hu) (h.rest (heq ▸ hu)) hD
            (by simpa using hS.2) rfl
          simp only [List.cons_append, List.length_cons, List.length_append]
          omega
    | @behind p x hover =>
      obtain ⟨c, x, rfl⟩ := List.exists_cons_of_ne_nil hover.nonempty
      obtain ⟨kind, w, r, hcut⟩ := A.exists_cutsOff c (x ++ v)
      have heq : (c :: w) ++ r = (c :: x) ++ v := by simpa using hcut.text_eq.symm
      have hlen := congrArg List.length heq
      simp only [List.cons_append, List.length_cons, List.length_append] at hlen hn
      rw [List.cons_append, hcut.piecesFrom_eq] at hD ⊢
      simp only [List.mem_append, or_imp, forall_and] at hD ⊢
      have hstep := hover.step heq (List.cons_ne_nil _ _)
        (h.plain_left.of_cutsOff (hover.plain c List.mem_cons_self) hcut)
        (hD.1 _ List.mem_cons_self)
      refine ⟨fun y hy hname => .inr ?_, ih _ (by omega) (by simpa using hstep)
        (h.rest (heq ▸ hu : Q ((c :: w) ++ r))) hv hD.2 hS rfl⟩
      obtain rfl : y = ⟨p, kind, c :: w⟩ := by simpa [laid] using hy
      obtain ⟨z, hz, hplain, hstart, hend, hbefore⟩ := hover.piece
      have hlt := hbefore hname
      simp only [List.length_cons] at hend
      exact ⟨z, hz, hplain, hlt, show p < _ by omega⟩
    | @ahead q x hover =>
      obtain ⟨c, x, rfl⟩ := List.exists_cons_of_ne_nil hover.nonempty
      obtain ⟨kind, w, r, hcut⟩ := B.exists_cutsOff c (x ++ u)
      have heq : (c :: w) ++ r = (c :: x) ++ u := by simpa using hcut.text_eq.symm
      have hlen := congrArg List.length heq
      simp only [List.cons_append, List.length_cons, List.length_append] at hlen hn
      rw [List.cons_append, hcut.piecesFrom_eq] at hS
      simp only [List.mem_append, or_imp, forall_and] at hS
      have hstep := hover.step heq (List.cons_ne_nil _ _)
        (h.plain_right.of_cutsOff (hover.plain c List.mem_cons_self) hcut)
        (hS.1 _ List.mem_cons_self)
      exact ih _ (by omega) (by simpa using hstep.symm) hu
        (h.rest (heq ▸ hv : Q ((c :: w) ++ r))) hD hS.2 rfl

/-- **A name to one lexicon is a name to the other**, or hidden in a token of it. -/
theorem told (h : Kindred A B Q) {s : List Char} (hs : Q s) {x : Piece κ}
    (hx : x ∈ A.piecesFrom 0 s) (hname : x.IsName) : Told (B.piecesFrom 0 s) x :=
  h.told_through (.even 0 s) hs hs (fun _ => id) (fun _ => id) x hx hname

end Kindred

/-! ### One token and no more -/

section

variable {A : Lexicon κ} {B : Lexicon κ'} {kind : κ} {kind' : κ'} {c : Char} {s w r : List Char}

theorem names_eq_nil {p : Nat} {xs : List (κ × List Char)}
    (h : ∀ x ∈ xs, x.2.head?.any isNameStart = false) : names p xs = [] := by
  rw [names, List.map_eq_nil_iff, List.filter_eq_nil_iff]
  induction xs generalizing p with
  | nil => exact fun x hx => absurd hx List.not_mem_nil
  | cons x xs ih =>
    obtain ⟨hx, hxs⟩ := List.forall_mem_cons.mp h
    rw [laid, List.forall_mem_cons]
    exact ⟨by simp [hx], ih hxs⟩

/-- Of one piece the text decides. -/
theorem names_singleton (p : Nat) (w : List Char) :
    names p [(kind, w)] = names p [(kind', w)] := by
  cases h : w.head?.any isNameStart <;> simp [names, laid, h]

/-- The same token to both. -/
theorem Together.one (hA : firstMatch A.classes s = some (kind, w, r))
    (hB : firstMatch B.classes s = some (kind', w, r)) : Together A B s :=
  ⟨[(kind, w)], [(kind', w)], r, .found hA (.nil r), .found hB (.nil r), length_rest_lt hA,
    fun p => names_singleton p w⟩

/-- A character that is a token by itself to both. -/
theorem Together.single (hA : firstMatch A.classes (c :: s) = none)
    (hB : firstMatch B.classes (c :: s) = none) : Together A B (c :: s) :=
  ⟨[(A.other, [c])], [(B.other, [c])], s, .other hA (.nil s), .other hB (.nil s),
    Nat.lt_succ_self _, fun p => names_singleton p [c]⟩

/-- Tokens of both up to the same place, and no names. -/
theorem Together.of_nameless {xs : List (κ × List Char)} {ys : List (κ' × List Char)}
    (hA : A.CutsOff (c :: s) xs r) (hB : B.CutsOff (c :: s) ys r) (hlt : r.length < s.length + 1)
    (hx : ∀ x ∈ xs, x.2.head?.any isNameStart = false)
    (hy : ∀ y ∈ ys, y.2.head?.any isNameStart = false) : Together A B (c :: s) :=
  ⟨xs, ys, r, hA, hB, hlt, fun _ => by rw [names_eq_nil hx, names_eq_nil hy]⟩

theorem firstMatch_ne_none_of_mem {classes : List (Pattern × (List Char → κ))}
    {cls : Pattern × (List Char → κ)} (hcls : cls ∈ classes)
    (h : cls.1.split s = some (c :: w, r)) : firstMatch classes s ≠ none := by
  induction classes with
  | nil => exact absurd hcls List.not_mem_nil
  | cons cls' classes ih =>
    rw [firstMatch]
    rcases List.mem_cons.mp hcls with rfl | hcls
    · simp [h]
    · split
      · simp
      · exact ih hcls

/-- If all classes refuse a character, none matches. -/
theorem firstMatch_eq_none {classes : List (Pattern × (List Char → κ))}
    (h : ∀ cls ∈ classes, cls.1.Refuses c = true) : firstMatch classes (c :: s) = none := by
  rw [← List.append_nil classes, firstMatch_of_refuses h]
  rfl

/-- If the classes before a place and behind another refuse a character, those between decide. -/
theorem firstMatch_amid {classes : List (Pattern × (List Char → κ))} (m n : Nat)
    (hfront : ∀ cls ∈ classes.take m, cls.1.Refuses c = true)
    (hback : ∀ cls ∈ classes.drop (m + n), cls.1.Refuses c = true) (s : List Char) :
    firstMatch classes (c :: s) = firstMatch ((classes.drop m).take n) (c :: s) := by
  have hsplit : classes = classes.take m ++ ((classes.drop m).take n ++ classes.drop (m + n)) := by
    rw [← List.drop_drop, List.take_append_drop, List.take_append_drop]
  conv_lhs => rw [hsplit, firstMatch_of_refuses hfront]
  induction (classes.drop m).take n with
  | nil => exact firstMatch_eq_none hback
  | cons cls between ih => rw [List.cons_append, firstMatch, firstMatch, ih]

end

end Lexicon

/-! ### Names -/

open Lexicon

/-- A word takes the characters of a name, and these only. -/
theorem Pattern.split_word {c : Char} (hc : isNameStart c = true) (s : List Char) :
    word.split (c :: s) = some (c :: s.takeWhile isNameRest, s.dropWhile isNameRest) :=
  split_one_seq hc rfl

theorem DirectiveKind.firstMatch_nameStart {c : Char} (hc : isNameStart c = true)
    (s : List Char) : firstMatch lexicon.classes (c :: s) =
      some (.identifier, c :: s.takeWhile isNameRest, s.dropWhile isNameRest) := by
  have hne {d : Char} (hd : isNameStart d = false) : d ≠ c := ne_of_class hc hd
  have hfront : ∀ cls ∈ lexicon.classes.take 8, cls.1.Refuses c = true := by
    simp [lexicon, Refuses, starComment, slashComment, quoted, escapedName, hne (d := '/') rfl,
      hne (d := '"') rfl, hne (d := '\\') rfl, hne (d := backquote) rfl]
  exact (firstMatch_of_refuses hfront).trans (firstMatch_cons (split_word hc s))

theorem SourceKind.firstMatch_nameStart {c : Char} (hc : isNameStart c = true)
    (s : List Char) : firstMatch lexicon.classes (c :: s) =
      some (ofWord (c :: s.takeWhile isNameRest), c :: s.takeWhile isNameRest,
        s.dropWhile isNameRest) := by
  rw [← List.take_append_drop 13 lexicon.classes, firstMatch_of_refuses (refuses_of_isNameStart hc)]
  exact firstMatch_cons (split_word hc s)

/-! ### Openers -/

section

variable {s : List Char}

/-- A line feed is a token to both. -/
theorem together_newline (s : List Char) :
    Together DirectiveKind.lexicon SourceKind.lexicon ('\n' :: s) :=
  .one (DirectiveKind.firstMatch_newline s) (w := ['\n']) (r := s) rfl

/-- A string is a token to both, and so is a quote that begins none. -/
theorem together_quote (s : List Char) :
    Together DirectiveKind.lexicon SourceKind.lexicon ('"' :: s) := by
  have hdirective : firstMatch DirectiveKind.lexicon.classes ('"' :: s) =
      firstMatch [(quoted, fun _ => DirectiveKind.string)] ('"' :: s) :=
    firstMatch_amid 7 1 (by decide) (by decide) s
  have hsource : firstMatch SourceKind.lexicon.classes ('"' :: s) =
      firstMatch [(quoted, fun _ => SourceKind.stringLiteral)] ('"' :: s) :=
    firstMatch_amid 6 1 (by decide) (by decide) s
  cases h : quoted.split ('"' :: s) with
  | none =>
    refine .single (hdirective.trans ?_) (hsource.trans ?_) <;> rw [firstMatch, h] <;> rfl
  | some m =>
    obtain ⟨w, r⟩ := m
    obtain ⟨d, w, rfl⟩ := List.exists_cons_of_ne_nil (ne_nil_of_consumes (by decide) h)
    exact .one (hdirective.trans (firstMatch_cons h)) (hsource.trans (firstMatch_cons h))

/-- A backslash continues the line, begins an escaped name or is a token by itself to the lexicon of
directives. -/
theorem DirectiveKind.firstMatch_backslash (s : List Char) :
    firstMatch lexicon.classes ('\\' :: s) =
      firstMatch [(continuationPattern, fun _ => .lineContinuation),
        (escapedName, fun _ => .escapedIdentifier)] ('\\' :: s) :=
  firstMatch_amid 3 2 (by decide) (by decide) s

theorem SourceKind.firstMatch_backslash (s : List Char) :
    firstMatch lexicon.classes ('\\' :: s) =
      firstMatch [(escapedName, fun _ => .escapedIdentifier)] ('\\' :: s) :=
  firstMatch_amid 8 1 (by decide) (by decide) s

theorem split_escapedName_blank {c : Char} (hc : isBlank c = true) (s : List Char) :
    escapedName.split ('\\' :: c :: s) = none := by
  simp [escapedName, split, run1, stripFront, hc]

/-- A backslash: an escaped name to both, or a token by itself, but to the lexicon of directives it
may take the end of the line. -/
theorem together_backslash (hreturn : ∀ r, s = '\r' :: r → r.head? = some '\n') :
    Together DirectiveKind.lexicon SourceKind.lexicon ('\\' :: s) := by
  have hsource {c : Char} (hc : isBlank c = true) (s : List Char) :
      firstMatch SourceKind.lexicon.classes ('\\' :: c :: s) = none := by
    rw [SourceKind.firstMatch_backslash, firstMatch, split_escapedName_blank hc]
    rfl
  cases s with
  | nil => exact .single rfl rfl
  | cons c s =>
    by_cases hn : c = '\n'
    · subst hn
      refine .of_nameless (A := DirectiveKind.lexicon) (B := SourceKind.lexicon)
        (.found (w := ['\\', '\n']) rfl (.nil s))
        (.other (hsource (by decide) s) (.found (w := ['\n']) rfl (.nil s))) ?_ ?_ ?_
      · simp only [List.length_cons]
        omega
      · simp [isNameStart]
      · simp [isNameStart]
    by_cases hr : c = '\r'
    · subst hr
      obtain ⟨s, rfl⟩ : ∃ r, s = '\n' :: r := List.head?_eq_some_iff.mp (hreturn s rfl)
      refine .of_nameless (A := DirectiveKind.lexicon) (B := SourceKind.lexicon)
        (.found (w := ['\\', '\r', '\n']) rfl (.nil s))
        (.other (hsource (by decide) _) (.found (w := ['\r']) rfl
          (.found (w := ['\n']) rfl (.nil s)))) ?_ ?_ ?_
      · simp only [List.length_cons]
        omega
      · simp [isNameStart]
      · simp [isNameStart]
    have hnone : DirectiveKind.continuationPattern.split ('\\' :: c :: s) = none := by
      simp [DirectiveKind.continuationPattern, split, stripFront, Ne.symm hn, Ne.symm hr]
    have hdirective : firstMatch DirectiveKind.lexicon.classes ('\\' :: c :: s) =
        firstMatch [(escapedName, fun _ => .escapedIdentifier)] ('\\' :: c :: s) := by
      rw [DirectiveKind.firstMatch_backslash, firstMatch_cons_of_none hnone]
    cases h : escapedName.split ('\\' :: c :: s) with
    | none =>
      refine .single (hdirective.trans ?_) ((SourceKind.firstMatch_backslash _).trans ?_) <;>
        rw [firstMatch, h] <;> rfl
    | some m =>
      obtain ⟨w, r⟩ := m
      obtain ⟨d, w, rfl⟩ := List.exists_cons_of_ne_nil (ne_nil_of_consumes (by decide) h)
      exact .one (hdirective.trans (firstMatch_cons h))
        ((SourceKind.firstMatch_backslash _).trans (firstMatch_cons h))

/-! ### Comments -/

/-- **Where a comment on one line stops** in the lexicon of directives: where the line ends, or
before a backslash that continues it. -/
theorem exists_commentRest (s : List Char) : ∃ x r,
    (many commentCharacter).split s = some (x, r) ∧ s = x ++ r ∧ '\n' ∉ x ∧
      (r = [] ∨ (∃ t, r = '\n' :: t) ∨ r = ['\\'] ∨ (∃ t, r = '\\' :: '\n' :: t) ∨
        ∃ t, r = '\\' :: '\r' :: t) := by
  induction s with
  | nil => exact ⟨[], [], rfl, rfl, List.not_mem_nil, .inl rfl⟩
  | cons c s ih =>
    obtain ⟨x, r, hsplit, rfl, hx, hr⟩ := ih
    have htake (hc : commentCharacter.split (c :: (x ++ r)) = some ([c], x ++ r)) (hn : c ≠ '\n') :
        ∃ x' r', (many commentCharacter).split (c :: (x ++ r)) = some (x', r') ∧
          c :: (x ++ r) = x' ++ r' ∧ '\n' ∉ x' ∧
          (r' = [] ∨ (∃ t, r' = '\n' :: t) ∨ r' = ['\\'] ∨ (∃ t, r' = '\\' :: '\n' :: t) ∨
            ∃ t, r' = '\\' :: '\r' :: t) := by
      refine ⟨c :: x, r, ?_, rfl, by simpa using ⟨Ne.symm hn, hx⟩, hr⟩
      rw [split_many_of_split hc, hsplit]
      rfl
    by_cases hn : c = '\n'
    · subst hn
      exact ⟨[], _, split_many_of_none rfl, rfl, List.not_mem_nil, .inr (.inl ⟨_, rfl⟩)⟩
    by_cases hslash : c = '\\'
    · subst hslash
      have hsplit := split_commentCharacter_backslash (x ++ r)
      by_cases hnext : (x ++ r).head?.any (fun c => c != '\n' && c != '\r') = true
      · exact htake (hsplit.trans (if_pos hnext)) hn
      · have hnone := split_many_of_none (hsplit.trans (if_neg hnext))
        refine ⟨[], _, hnone, rfl, List.not_mem_nil, .inr (.inr ?_)⟩
        cases hs : x ++ r with
        | nil => exact .inl rfl
        | cons d t =>
          rw [hs] at hnext
          have hd : d ≠ '\n' → d = '\r' := by simpa using hnext
          by_cases hfeed : d = '\n'
          · exact .inr (.inl ⟨t, by rw [hfeed]⟩)
          · exact .inr (.inr ⟨t, by rw [hd hfeed]⟩)
    · exact htake (split_commentCharacter ⟨hn, hslash⟩ _) hn

theorem DirectiveKind.firstMatch_slash (s : List Char) :
    firstMatch lexicon.classes ('/' :: s) =
      firstMatch [(slashComment, fun _ => .oneLineComment), (starComment, fun _ => .blockComment)]
        ('/' :: s) :=
  firstMatch_amid 5 2 (by decide) (by decide) s

theorem SourceKind.firstMatch_slash (s : List Char) :
    firstMatch lexicon.classes ('/' :: s) =
      firstMatch ([(seq (text ['/', '/']) (run fun c => c != '\n'), fun _ => .oneLineComment),
        (starComment, fun _ => .blockComment)] ++ lexicon.classes.drop 6) ('/' :: s) :=
  have hfront : ∀ cls ∈ lexicon.classes.take 4, cls.1.Refuses '/' = true := by decide
  firstMatch_of_refuses hfront

/-- A slash that begins no comment. -/
theorem SourceKind.firstMatch_operator (hs : s.head? ≠ some '=') :
    firstMatch (lexicon.classes.drop 6) ('/' :: s) = some (.slash, ['/'], s) := by
  have hlonger : (text ['/', '=']).split ('/' :: s) = none := by
    cases s with
    | nil => rfl
    | cons d s =>
      have hd : '=' ≠ d := fun h => hs (by rw [h]; rfl)
      simp [split, stripFront, hd]
  have hamid : ∀ cls ∈ (lexicon.classes.drop 37).take 27, cls.1.Refuses '/' = true := by decide
  have hequals : firstMatch ((text ['/', '='], fun _ => SourceKind.slashEq) ::
      (lexicon.classes.drop 37).take 28) ('/' :: s) =
        firstMatch ((lexicon.classes.drop 37).take 28) ('/' :: s) :=
    firstMatch_cons_of_none hlonger
  rw [firstMatch_amid 30 29 (by decide) (by decide)]
  exact hequals.trans ((firstMatch_of_refuses hamid).trans (firstMatch_cons rfl))

/-- **A text without macro uses**, in which a backslash that ends a line stands before a line feed,
with or without a carriage return. -/
structure WithoutUses (s : List Char) : Prop where
  backquote_not_mem : backquote ∉ s
  returns : ∀ r, '\\' :: '\r' :: r <:+ s → r.head? = some '\n'

theorem WithoutUses.of_suffix {t : List Char} (h : WithoutUses s) (ht : t <:+ s) :
    WithoutUses t where
  backquote_not_mem hc := h.backquote_not_mem (ht.subset hc)
  returns r hr := h.returns r (hr.trans ht)

/-- **A comment that ends with its line.** To the lexicon of directives a backslash at the end of
the line is no part of it, but then it takes the end of the line with the backslash. -/
theorem together_comment (hs : WithoutUses s) :
    Together DirectiveKind.lexicon SourceKind.lexicon ('/' :: '/' :: s) := by
  obtain ⟨x, r, hsplit, rfl, hx, hr⟩ := exists_commentRest s
  have hdirective : firstMatch DirectiveKind.lexicon.classes ('/' :: '/' :: (x ++ r)) =
      some (.oneLineComment, '/' :: '/' :: x, r) := by
    rw [DirectiveKind.firstMatch_slash]
    refine firstMatch_cons ?_
    have : DirectiveKind.slashComment.split ('/' :: '/' :: (x ++ r)) =
        ((many commentCharacter).split (x ++ r)).map fun m => ('/' :: '/' :: m.1, m.2) := rfl
    rw [this, hsplit]
    rfl
  have hsource {y t : List Char} (hr : r = y ++ t) (hy : '\n' ∉ y)
      (ht : ∀ c ∈ t.head?, c = '\n') : firstMatch SourceKind.lexicon.classes
        ('/' :: '/' :: (x ++ r)) = some (.oneLineComment, '/' :: '/' :: (x ++ y), t) := by
    rw [SourceKind.firstMatch_slash]
    refine firstMatch_cons ?_
    have hrun : (run fun c => c != '\n').split (x ++ r) = some (x ++ y, t) := by
      rw [hr, ← List.append_assoc]
      refine split_run (fun c hc => ?_) fun c hc => by simp [ht c hc]
      have hne : c ≠ '\n' := by
        rintro rfl
        exact (List.mem_append.mp hc).elim hx hy
      simpa using hne
    rw [split, show (text ['/', '/']).split ('/' :: '/' :: (x ++ r)) =
      some (['/', '/'], x ++ r) from rfl]
    simp only [hrun]
    rfl
  have hnewline (t : List Char) := DirectiveKind.firstMatch_newline t
  rcases hr with rfl | ⟨t, rfl⟩ | rfl | ⟨t, rfl⟩ | ⟨t, rfl⟩
  · exact .one hdirective (by simpa using hsource (y := []) rfl List.not_mem_nil nofun)
  · exact .one hdirective (by simpa using hsource (y := []) rfl List.not_mem_nil (by simp))
  · refine .of_nameless (.found hdirective (.other rfl (.nil [])))
      (.found (hsource (t := []) (y := ['\\']) rfl (by decide) nofun) (.nil [])) ?_ ?_ ?_
    · simp
    · simp [isNameStart]
    · simp [isNameStart]
  · refine .of_nameless (.found hdirective (.found (w := ['\\', '\n']) rfl (.nil t)))
      (.found (hsource (y := ['\\']) rfl (by decide) (by simp))
        (.found (w := ['\n']) rfl (.nil t))) ?_ ?_ ?_
    · simp
      omega
    · simp [isNameStart]
    · simp [isNameStart]
  · obtain ⟨t, rfl⟩ : ∃ t', t = '\n' :: t' :=
      List.head?_eq_some_iff.mp (hs.returns t (List.suffix_append x _))
    refine .of_nameless (.found hdirective (.found (w := ['\\', '\r', '\n']) rfl (.nil t)))
      (.found (hsource (y := ['\\', '\r']) rfl (by decide) (by simp))
        (.found (w := ['\n']) rfl (.nil t))) ?_ ?_ ?_
    · simp
      omega
    · simp [isNameStart]
    · simp [isNameStart]

/-- A slash: a comment to both, or a token by itself, but to the lexicon of source text it may be
the first character of an operator. -/
theorem together_slash (hs : WithoutUses s) :
    Together DirectiveKind.lexicon SourceKind.lexicon ('/' :: s) := by
  by_cases hcomment : s.head? = some '/'
  · obtain ⟨s, rfl⟩ := List.head?_eq_some_iff.mp hcomment
    exact together_comment (hs.of_suffix (List.suffix_cons _ _))
  by_cases hequals : s.head? = some '='
  · obtain ⟨s, rfl⟩ := List.head?_eq_some_iff.mp hequals
    refine .of_nameless (A := DirectiveKind.lexicon) (B := SourceKind.lexicon)
      (.other rfl (.found (w := ['=']) rfl (.nil s)))
      (.found (w := ['/', '=']) rfl (.nil s)) ?_ ?_ ?_
    · simp only [List.length_cons]
      omega
    · simp [isNameStart]
    · simp [isNameStart]
  have hline {a : Pattern} : (seq (text ['/', '/']) a).split ('/' :: s) = none := by
    cases s with
    | nil => rfl
    | cons d s =>
      have hd : '/' ≠ d := fun h => hcomment (by rw [h]; rfl)
      simp [split, stripFront, hd]
  have hdirective : firstMatch DirectiveKind.lexicon.classes ('/' :: s) =
      firstMatch [(starComment, fun _ => .blockComment)] ('/' :: s) :=
    (DirectiveKind.firstMatch_slash s).trans (firstMatch_cons_of_none hline)
  have hsource : firstMatch SourceKind.lexicon.classes ('/' :: s) =
      firstMatch ((starComment, fun _ => .blockComment) :: SourceKind.lexicon.classes.drop 6)
        ('/' :: s) :=
    (SourceKind.firstMatch_slash s).trans (firstMatch_cons_of_none hline)
  cases h : starComment.split ('/' :: s) with
  | some m =>
    obtain ⟨w, r⟩ := m
    obtain ⟨d, w, rfl⟩ := List.exists_cons_of_ne_nil (ne_nil_of_consumes (by decide) h)
    exact .one (hdirective.trans (firstMatch_cons h)) (hsource.trans (firstMatch_cons h))
  | none =>
    have hnone : firstMatch DirectiveKind.lexicon.classes ('/' :: s) = none :=
      hdirective.trans (firstMatch_cons_of_none h)
    have hsome := hsource.trans
      ((firstMatch_cons_of_none h).trans (SourceKind.firstMatch_operator hequals))
    exact .of_nameless (.other hnone (.nil s)) (.found hsome (.nil s)) (Nat.lt_succ_self _)
      (by simp [isNameStart]) (by simp [isNameStart])

/-- **The two lexicons are kindred** on texts without macro uses. -/
theorem kindred : Kindred DirectiveKind.lexicon SourceKind.lexicon WithoutUses where
  rest h := h.of_suffix (List.suffix_append _ _)
  plain_left := by decide
  plain_right := by decide
  together {c s} hc hs := by
    by_cases hname : isNameStart c = true
    · exact .one (DirectiveKind.firstMatch_nameStart hname s)
        (SourceKind.firstMatch_nameStart hname s)
    have hmem : c ∈ ['/', '"', '\\', '\n', backquote] :=
      List.contains_iff_mem.mp (hc.resolve_left hname)
    have hrest := hs.of_suffix (List.suffix_cons c s)
    simp only [List.mem_cons, List.not_mem_nil, or_false] at hmem
    rcases hmem with rfl | rfl | rfl | rfl | rfl
    · exact together_slash hrest
    · exact together_quote s
    · exact together_backslash fun r hr => hs.returns r (hr ▸ List.suffix_refl _)
    · exact together_newline s
    · exact absurd List.mem_cons_self hs.backquote_not_mem

end

end Verilog
