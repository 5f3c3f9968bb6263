import Verilog.Proofs.Syntax.Marks

/-!
# Which marks can be paired

Marks are brackets: the opening and closing ones among the tokens of a text are balanced
(`SourceKind.Balanced`), or the text is refused, and a closing mark has to carry a number that a
node can have. These two conditions are all there is to it (`MarkedText.ofText_iff_balanced`). Of a
text that is not refused, marks that match (`SourceKind.Matches`) belong to the node that the
closing one carries, every mark matches another, and no other token belongs to a node.
-/

namespace Verilog

/-! ### Balanced rows of kinds -/

namespace SourceKind

/-- **Is a row of tokens balanced**, by their kinds? Each opening mark has a closing one behind it,
with a balanced row between them. -/
inductive Balanced : List SourceKind → Prop where
  | nil : Balanced []
  | other {k : SourceKind} {ks : List SourceKind} (hk : k.isMark = false) (h : Balanced ks) :
    Balanced (k :: ks)
  | pair {inner rest : List SourceKind} (hi : Balanced inner) (hr : Balanced rest) :
    Balanced (.preprocBegin :: (inner ++ .preprocEnd :: rest))

/-- **Do the marks at two places of a row match?** What stands between them is balanced. -/
def Matches (ks : List SourceKind) (i j : Nat) : Prop :=
  ∃ before inner after, ks = before ++ .preprocBegin :: (inner ++ .preprocEnd :: after) ∧
    Balanced inner ∧ i = before.length ∧ j = before.length + (inner.length + 1)

variable {ks : List SourceKind} {k : SourceKind} {i j n : Nat}

theorem Matches.context (h : Matches ks i j) (front back : List SourceKind) :
    Matches (front ++ (ks ++ back)) (front.length + i) (front.length + j) := by
  obtain ⟨before, inner, after, rfl, hinner, rfl, rfl⟩ := h
  refine ⟨front ++ before, inner, after ++ back, by simp, hinner, by simp, ?_⟩
  rw [List.length_append, Nat.add_assoc]

/-- The marks around a balanced row match. -/
theorem matches_pair {inner : List SourceKind} (hinner : Balanced inner) (rest : List SourceKind) :
    Matches (.preprocBegin :: (inner ++ .preprocEnd :: rest)) 0 (inner.length + 1) :=
  ⟨[], inner, rest, rfl, hinner, rfl, (Nat.zero_add _).symm⟩

/-- **Every mark of a balanced row matches another.** -/
theorem Balanced.exists_matches (h : Balanced ks) (hi : ks[i]? = some k) (hk : k.isMark = true) :
    ∃ j, Matches ks i j ∨ Matches ks j i := by
  induction h generalizing i with
  | nil => simp at hi
  | @other k' ks hk' _ ih =>
    cases i with
    | zero =>
      obtain rfl : k' = k := by simpa using hi
      simp [hk] at hk'
    | succ i =>
      obtain ⟨j, hj⟩ := ih (by simpa using hi)
      refine ⟨[k'].length + j, ?_⟩
      rw [Nat.add_comm i 1, ← List.append_nil ks]
      exact hj.imp (·.context [k'] []) (·.context [k'] [])
  | @pair inner rest hinner _ ihi ihr =>
    cases i with
    | zero => exact ⟨_, .inl (matches_pair hinner rest)⟩
    | succ i =>
      rw [List.getElem?_cons_succ] at hi
      rcases Nat.lt_trichotomy i inner.length with hlt | rfl | hlt
      · rw [List.getElem?_append_left hlt] at hi
        obtain ⟨j, hj⟩ := ihi hi
        refine ⟨1 + j, ?_⟩
        rw [Nat.add_comm i 1]
        exact hj.imp (·.context [.preprocBegin] (.preprocEnd :: rest))
          (·.context [.preprocBegin] (.preprocEnd :: rest))
      · exact ⟨0, .inr (matches_pair hinner rest)⟩
      · obtain ⟨d, rfl⟩ := Nat.exists_eq_add_of_lt hlt
        have hrest : rest[d]? = some k := by
          rw [Nat.add_assoc, List.getElem?_append_right (Nat.le_add_right _ _),
            Nat.add_sub_cancel_left, List.getElem?_cons_succ] at hi
          exact hi
        obtain ⟨j, hj⟩ := ihr hrest
        obtain ⟨front, hrow, hplace⟩ : ∃ front : List SourceKind,
            SourceKind.preprocBegin :: (inner ++ .preprocEnd :: rest) = front ++ (rest ++ []) ∧
            inner.length + d + 1 + 1 = front.length + d := by
          refine ⟨.preprocBegin :: (inner ++ [.preprocEnd]), by simp, ?_⟩
          simp only [List.length_cons, List.length_append, List.length_nil]
          omega
        refine ⟨front.length + j, ?_⟩
        rw [hrow, hplace]
        exact hj.imp (·.context front []) (·.context front [])

/-! ### Rows that close marks opened before -/

/-- Does a row close so many marks that were opened before it, and is it balanced but for them? -/
def Closes : Nat → List SourceKind → Prop
  | 0, ks => Balanced ks
  | n + 1, ks => ∃ inner rest, ks = inner ++ .preprocEnd :: rest ∧ Balanced inner ∧ Closes n rest

theorem closes_nil : Closes n [] ↔ n = 0 := by
  cases n with
  | zero => exact iff_of_true .nil rfl
  | succ n => simp [Closes]

theorem closes_other (hk : k.isMark = false) : Closes n (k :: ks) ↔ Closes n ks := by
  have hbalanced : ∀ {ks : List SourceKind}, Balanced (k :: ks) ↔ Balanced ks := by
    refine ⟨fun h => ?_, .other hk⟩
    cases h with
    | other _ h => exact h
    | pair => cases hk
  cases n with
  | zero => exact hbalanced
  | succ n =>
    constructor
    · rintro ⟨_ | ⟨_, inner⟩, rest, heq, hinner, hrest⟩
      · obtain ⟨rfl, -⟩ := List.cons.inj heq
        cases hk
      · obtain ⟨rfl, rfl⟩ := List.cons.inj heq
        exact ⟨inner, rest, rfl, hbalanced.mp hinner, hrest⟩
    · rintro ⟨inner, rest, rfl, hinner, hrest⟩
      exact ⟨k :: inner, rest, rfl, .other hk hinner, hrest⟩

theorem closes_end : Closes n (.preprocEnd :: ks) ↔ 0 < n ∧ Closes (n - 1) ks := by
  have hnot : ∀ {ks : List SourceKind}, ¬ Balanced (.preprocEnd :: ks) := by
    intro ks h
    cases h with
    | other hk _ => cases hk
  cases n with
  | zero => exact iff_of_false hnot fun h => Nat.lt_irrefl 0 h.1
  | succ n =>
    rw [Nat.add_sub_cancel]
    constructor
    · rintro ⟨_ | ⟨_, inner⟩, rest, heq, hinner, hrest⟩
      · obtain ⟨-, rfl⟩ := List.cons.inj heq
        exact ⟨Nat.succ_pos n, hrest⟩
      · obtain ⟨rfl, -⟩ := List.cons.inj heq
        exact absurd hinner hnot
    · rintro ⟨-, hrest⟩
      exact ⟨[], ks, rfl, .nil, hrest⟩

theorem closes_begin : Closes n (.preprocBegin :: ks) ↔ Closes (n + 1) ks := by
  have hbalanced : ∀ {ks : List SourceKind}, Balanced (.preprocBegin :: ks) ↔ Closes 1 ks := by
    intro ks
    constructor
    · intro h
      cases h with
      | other hk _ => cases hk
      | @pair inner rest hi hr => exact ⟨inner, rest, rfl, hi, hr⟩
    · rintro ⟨inner, rest, rfl, hi, hr⟩
      exact .pair hi hr
  cases n with
  | zero => exact hbalanced
  | succ n =>
    constructor
    · rintro ⟨_ | ⟨_, inner⟩, rest, heq, hinner, hrest⟩
      · cases (List.cons.inj heq).1
      · obtain ⟨rfl, rfl⟩ := List.cons.inj heq
        obtain ⟨x, y, rfl, hx, hy⟩ := hbalanced.mp hinner
        exact ⟨x, y ++ .preprocEnd :: rest, by simp, hx, y, rest, rfl, hy, hrest⟩
    · rintro ⟨x, _, rfl, hx, y, rest, rfl, hy, hrest⟩
      exact ⟨.preprocBegin :: (x ++ .preprocEnd :: y), rest, by simp, .pair hx hy, hrest⟩

end SourceKind

/-! ### The numbers of closing marks -/

open SourceKind

/-- The number that the digits of a closing mark denote. -/
def SourceToken.markNumber (t : SourceToken) : Nat :=
  digitsValue 10 (t.text.toList.filter Char.isDigit)

/-- What a closing mark looks like. -/
theorem exists_digits {s : String} {t : SourceToken} (ht : t ∈ SourceToken.ofText s)
    (hk : t.kind = .preprocEnd) : ∃ ds, ds ≠ [] ∧ (∀ c ∈ ds, c.isDigit = true) ∧
      t.text.toList = endMarkFront ++ (ds ++ [markDelimiter]) := by
  rcases Lexicon.class_of_mem_tokens ht with ⟨h, -⟩ | ⟨cls, hcls, input, rest, hsplit, hkind, -⟩
  · exact absurd (h.symm.trans hk) (by decide)
  · rcases classes_cases cls hcls with rfl | rfl | ⟨hmark, -⟩
    · exact absurd (hkind.trans hk) (by simp)
    · obtain ⟨front, more, _, hfront, hmore, htext⟩ := Pattern.exists_of_split_seq hsplit
      obtain ⟨ds, back, _, hdigits, hback, rfl⟩ := Pattern.exists_of_split_seq hmore
      rw [Pattern.eq_of_split_text hfront, Pattern.eq_of_split_text hback] at htext
      obtain ⟨hne, hall⟩ := Pattern.forall_of_split_run1 hdigits
      exact ⟨ds, hne, hall, htext⟩
    · have := hmark t.text.toList
      rw [hkind, hk] at this
      cases this

/-- **The number of a closing mark is read**, if it fits in a mark. -/
theorem readEndMark?_eq {s : String} {t : SourceToken} (ht : t ∈ SourceToken.ofText s)
    (hk : t.kind = .preprocEnd) :
    readEndMark? t.text.toList = (some t.markNumber).filter (· < wordCount markLimitBits) := by
  obtain ⟨ds, hne, hds, htext⟩ := exists_digits ht hk
  have hfront : (endMarkFront.filter Char.isDigit) = [] := by decide
  have hback : [markDelimiter].filter Char.isDigit = [] := by decide
  have hnumber : t.markNumber = digitsValue 10 ds := by
    rw [SourceToken.markNumber, htext, List.filter_append, List.filter_append, hfront, hback,
      List.filter_eq_self.mpr hds, List.append_nil, List.nil_append]
  rw [readEndMark?, htext, Pattern.stripFront_append, hnumber]
  simpa using readUnsigned_digits hne hds

/-- A closing mark carries a number that a node can have if its digits denote one. -/
theorem exists_number_iff {s : String} {t : SourceToken} (ht : t ∈ SourceToken.ofText s)
    (hk : t.kind = .preprocEnd) :
    (∃ node, (readEndMark? t.text.toList).filter (· != 0) = some node) ↔
      1 ≤ t.markNumber ∧ t.markNumber < wordCount 32 := by
  simp only [readEndMark?_eq ht hk, Option.filter_eq_some_iff, markLimitBits]
  constructor
  · rintro ⟨node, ⟨hnode, hlt⟩, hne⟩
    obtain rfl : t.markNumber = node := Option.some.inj hnode
    exact ⟨Nat.pos_of_ne_zero (by simpa using hne), of_decide_eq_true hlt⟩
  · rintro ⟨hpos, hlt⟩
    exact ⟨t.markNumber, ⟨rfl, decide_eq_true hlt⟩, by simpa using Nat.ne_of_gt hpos⟩

/-! ### Pairing -/

/-- Marks nest, where so many are open before, if they close these and carry numbers. -/
theorem nested_iff_closes (ts : List (SourceToken × Nat)) (n : Nat) :
    Nested (marksAmong ts) n ↔ Closes n (ts.map (·.1.kind)) ∧
      ∀ t ∈ ts, t.1.kind = .preprocEnd →
        ∃ node, (readEndMark? t.1.text.toList).filter (· != 0) = some node := by
  induction ts generalizing n with
  | nil => simp [marksAmong, Nested, closes_nil]
  | cons t ts ih =>
    obtain ⟨token, i⟩ := t
    rw [marksAmong_cons, List.map_cons, List.forall_mem_cons]
    cases hm : token.kind.isMark with
    | false =>
      have hend : token.kind ≠ .preprocEnd := by
        rintro h
        rw [h] at hm
        cases hm
      rw [if_neg Bool.false_ne_true, closes_other hm, ih]
      simp [hend]
    | true =>
      rw [if_pos rfl]
      cases hk : token.kind with
      | preprocBegin =>
        rw [Nested, closes_begin, ih]
        simp
      | preprocEnd =>
        rw [Nested, closes_end, ih]
        simp only [forall_const]
        tauto
      | _ => simp [hk, isMark] at hm

/-- A balanced row leaves what is open before it as it is. -/
theorem foldl_stepOpened_of_balanced {ks : List SourceKind} (h : Balanced ks) :
    ∀ {ts : List (SourceToken × Nat)}, ts.map (·.1.kind) = ks →
      ∀ opened, ts.foldl stepOpened opened = opened := by
  induction h with
  | nil =>
    intro ts hts _
    rw [List.map_eq_nil_iff.mp hts]
    rfl
  | other hk _ ih =>
    intro ts hts opened
    obtain ⟨t, rest, rfl, rfl, hrest⟩ := List.map_eq_cons_iff.mp hts
    rw [List.foldl_cons, stepOpened_of_not_mark hk]
    exact ih hrest opened
  | pair _ _ ihi ihr =>
    intro ts hts opened
    obtain ⟨b, more, rfl, hb, hmore⟩ := List.map_eq_cons_iff.mp hts
    obtain ⟨inner, back, rfl, hinner, hback⟩ := List.map_eq_append_iff.mp hmore
    obtain ⟨e, rest, rfl, he, hrest⟩ := List.map_eq_cons_iff.mp hback
    have hbegin : stepOpened opened b = b.2 :: opened := by rw [stepOpened, hb]
    have hend : stepOpened (b.2 :: opened) e = opened := by rw [stepOpened, he, List.tail_cons]
    rw [List.foldl_cons, hbegin, List.foldl_append, ihi hinner, List.foldl_cons, hend]
    exact ihr hrest opened

namespace MarkedText

variable {p : PreprocessedText} {m : MarkedText}

/-- The kinds of the tokens of a preprocessed text. -/
def kindsOf (p : PreprocessedText) : List SourceKind := (SourceToken.ofText p.text).map (·.kind)

theorem map_kind_zipIdx (p : PreprocessedText) :
    (SourceToken.ofText p.text).zipIdx.map (·.1.kind) = kindsOf p := by
  have := List.map_map (f := Prod.fst) (g := Token.kind)
    (l := (SourceToken.ofText p.text).zipIdx)
  rw [List.zipIdx_map_fst] at this
  exact this.symm

/-- **A text is accepted exactly if its marks are balanced** and its closing marks carry numbers of
nodes. -/
theorem ofText_iff_balanced (p : PreprocessedText) : (∃ m, ofText p = .ok m) ↔
    Balanced (kindsOf p) ∧ ∀ t ∈ SourceToken.ofText p.text, t.kind = .preprocEnd →
      1 ≤ t.markNumber ∧ t.markNumber < wordCount 32 := by
  rw [ofText_iff, ← marksAmong_zipIdx, nested_iff_closes, map_kind_zipIdx]
  refine and_congr Iff.rfl ⟨fun h t ht hk => ?_, fun h t ht hk => ?_⟩
  · obtain ⟨i, hi⟩ := List.mem_iff_getElem?.mp ht
    exact (exists_number_iff ht hk).mp
      (h (t, i) (List.mk_mem_zipIdx_iff_getElem?.mpr hi) hk)
  · have hmem : t.1 ∈ SourceToken.ofText p.text :=
      List.mem_of_getElem? (List.mk_mem_zipIdx_iff_getElem?.mp ht)
    exact (exists_number_iff hmem hk).mpr (h t.1 hmem hk)

theorem zipIdx_eq {ts : List SourceToken} {front back : List (SourceToken × Nat)}
    {t : SourceToken × Nat} (h : ts.zipIdx = front ++ t :: back) :
    ts[front.length]? = some t.1 ∧ t.2 = front.length := by
  have ht : ts.zipIdx[front.length]? = some t := by simp [h]
  obtain ⟨u, hu, rfl⟩ := by simpa using ht
  exact ⟨hu, rfl⟩

/-- **Marks that match belong to the node that the closing one carries.** -/
theorem mark?_of_matches (h : ofText p = .ok m) {i j : Nat} (hm : Matches (kindsOf p) i j) :
    ∃ t, m.tokens[j]? = some t ∧ m.mark? i = some t.markNumber ∧
      m.mark? j = some t.markNumber := by
  obtain ⟨before, inner, after, hks, hinner, rfl, rfl⟩ := hm
  rw [← map_kind_zipIdx] at hks
  obtain ⟨front, more, hzip, hfront, hmore⟩ := List.map_eq_append_iff.mp hks
  obtain ⟨b, more, rfl, hb, hmore'⟩ := List.map_eq_cons_iff.mp hmore
  obtain ⟨middle, back, rfl, hmiddle, hback⟩ := List.map_eq_append_iff.mp hmore'
  obtain ⟨e, back, rfl, he, -⟩ := List.map_eq_cons_iff.mp hback
  have hi : before.length = front.length := by rw [← hfront, List.length_map]
  have hj : before.length + (inner.length + 1) = (front ++ b :: middle).length := by
    rw [← hfront, ← hmiddle]
    simp
  have hcut : (SourceToken.ofText p.text).zipIdx = (front ++ b :: middle) ++ e :: back := by
    simpa using hzip
  obtain ⟨-, htokens, -⟩ := ofText_eq h
  -- before the closing mark the opening one is the innermost that is open
  have hopened : ∃ more, m.opened (front ++ b :: middle).length = front.length :: more := by
    refine ⟨front.foldl stepOpened [], ?_⟩
    rw [opened, htokens, List.toList_toArray, hcut, List.take_left, List.foldl_append,
      List.foldl_cons, foldl_stepOpened_of_balanced hinner hmiddle, stepOpened, hb,
      (zipIdx_eq hzip).2]
  obtain ⟨more, hopened⟩ := hopened
  have htoken : m.tokens[(front ++ b :: middle).length]? = some e.1 := by
    rw [htokens, List.getElem?_toArray]
    exact (zipIdx_eq hcut).1
  obtain ⟨i, more', node, hopened', hread, hmark, hmark'⟩ := opened_of_end h htoken he
  obtain ⟨rfl, -⟩ := List.cons.inj (hopened'.symm.trans hopened)
  have hmem : e.1 ∈ SourceToken.ofText p.text := List.mem_of_getElem? (zipIdx_eq hcut).1
  rw [readEndMark?_eq hmem he] at hread
  obtain rfl : e.1.markNumber = node := Option.some.inj (Option.filter_eq_some_iff.mp hread).1
  rw [hj, hi]
  exact ⟨e.1, htoken, hmark, hmark'⟩

/-- A token that is no mark belongs to no node. -/
theorem mark?_of_not_mark (h : ofText p = .ok m) {i : Nat} {t : SourceToken}
    (hi : m.tokens[i]? = some t) (hk : t.kind.isMark = false) : m.mark? i = none := by
  obtain ⟨-, htokens, pairs, hp, hmarks⟩ := ofText_eq h
  obtain ⟨-, hperm, -⟩ := pairMarks_spec hp
  have hnot : i ∉ pairs.map (·.1) := by
    rw [hperm.mem_iff, List.map_nil, List.nil_append, List.mem_map]
    rintro ⟨⟨u, i⟩, hmem, rfl⟩
    obtain ⟨hmem, hmark⟩ := List.mem_filter.mp hmem
    have hu := List.mk_mem_zipIdx_iff_getElem?.mp hmem
    rw [htokens, List.getElem?_toArray] at hi
    obtain rfl : u = t := Option.some.inj (hu.symm.trans hi)
    rw [hk] at hmark
    cases hmark
  rw [mark?, hmarks, getElem?_setAll_of_not_mem hnot, Array.getElem?_replicate]
  split <;> rfl

end MarkedText

/-- **What it means that pairing decides the marks of a text.** -/
structure DecidesMarks (p : PreprocessedText) : Prop where
  accepts : (∃ m, MarkedText.ofText p = .ok m) ↔
    Balanced ((SourceToken.ofText p.text).map (·.kind)) ∧
      ∀ t ∈ SourceToken.ofText p.text, t.kind = .preprocEnd →
        1 ≤ t.markNumber ∧ t.markNumber < wordCount 32
  tokens : ∀ m, MarkedText.ofText p = .ok m → m.tokens.toList = SourceToken.ofText p.text
  /-- Marks that match belong to the node that the closing one carries. -/
  pairs : ∀ m, MarkedText.ofText p = .ok m → ∀ i j,
    Matches ((SourceToken.ofText p.text).map (·.kind)) i j →
      ∃ t, m.tokens[j]? = some t ∧ m.mark? i = some t.markNumber ∧ m.mark? j = some t.markNumber
  /-- Every mark matches another. -/
  matched : ∀ m, MarkedText.ofText p = .ok m → ∀ i t, m.tokens[i]? = some t →
    t.kind.isMark = true →
      ∃ j, Matches ((SourceToken.ofText p.text).map (·.kind)) i j ∨
        Matches ((SourceToken.ofText p.text).map (·.kind)) j i
  /-- No other token belongs to a node. -/
  others : ∀ m, MarkedText.ofText p = .ok m → ∀ i t, m.tokens[i]? = some t →
    t.kind.isMark = false → m.mark? i = none

/-- **Pairing decides the marks of every text.** -/
theorem decides_marks (p : PreprocessedText) : DecidesMarks p where
  accepts := MarkedText.ofText_iff_balanced p
  tokens m h := by rw [(MarkedText.ofText_eq h).2.1, List.toList_toArray]
  pairs m h i j := MarkedText.mark?_of_matches h
  matched m h i t hi hk := by
    have hbalanced := ((MarkedText.ofText_iff_balanced p).mp ⟨m, h⟩).1
    rw [(MarkedText.ofText_eq h).2.1, List.getElem?_toArray] at hi
    exact hbalanced.exists_matches (k := t.kind) (by simp [MarkedText.kindsOf, hi]) hk
  others m h i t := MarkedText.mark?_of_not_mark h

end Verilog
