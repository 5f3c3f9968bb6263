import Mathlib.Data.List.Nodup
import Verilog.Proofs.Lexing.Place
import Verilog.Syntax.MarkedText

/-!
# What is known of a marked text

Which marks are open before a token is read off the tokens alone (`MarkedText.opened`). In a text
whose marks could be paired, each closing mark meets an open one, both belong to the node that the
closing mark carries, each opening mark is closed, and none is open at the end.
-/

namespace Verilog

/-- The positions of the marks that are open after one more token, the innermost one first. -/
def stepOpened (opened : List Nat) (t : SourceToken × Nat) : List Nat :=
  match t.1.kind with
  | .preprocBegin => t.2 :: opened
  | .preprocEnd => opened.tail
  | _ => opened

/-- Is a token a mark? -/
def SourceKind.isMark : SourceKind → Bool
  | .preprocBegin | .preprocEnd => true
  | _ => false

theorem SourceKind.isMark_eq_false {k : SourceKind} (hb : k ≠ .preprocBegin)
    (he : k ≠ .preprocEnd) : k.isMark = false := by
  unfold isMark
  split <;> first | rfl | contradiction

theorem stepOpened_of_not_mark {t : SourceToken × Nat} (h : t.1.kind.isMark = false)
    (opened : List Nat) : stepOpened opened t = opened := by
  unfold stepOpened
  split
  · simp_all [SourceKind.isMark]
  · simp_all [SourceKind.isMark]
  · rfl

/-- **What pairing marks gives**: nothing is open at the end, each mark is in one pair, and a
closing mark is in a pair with the innermost one that is open. -/
theorem pairMarks_spec {rest opened : List (SourceToken × Nat)} {pairs : List (Nat × NodeId)}
    (h : pairMarks rest opened = .ok pairs) :
    rest.foldl stepOpened (opened.map (·.2)) = [] ∧
      (pairs.map (·.1)).Perm
        (opened.map (·.2) ++ (rest.filter fun t => t.1.kind.isMark).map (·.2)) ∧
      ∀ k t, rest[k]? = some t → t.1.kind = .preprocEnd →
        ∃ b more node, (rest.take k).foldl stepOpened (opened.map (·.2)) = b :: more ∧
          (readEndMark? t.1.text.toList).filter (· != 0) = some node ∧
          (b, node) ∈ pairs ∧ (t.2, node) ∈ pairs := by
  induction rest generalizing opened pairs with
  | nil =>
    cases opened with
    | nil =>
      simp only [pairMarks, Except.ok.injEq] at h
      subst h
      simp
    | cons t opened => simp [pairMarks] at h
  | cons t rest ih =>
    obtain ⟨token, i⟩ := t
    unfold pairMarks at h
    -- an opening mark is open from here on, a closing one closes the innermost that is open and
    -- names the directive of both, and every other token leaves the open ones as they are
    split at h
    · rename_i hk
      obtain ⟨hend, hperm, hpair⟩ := ih h
      refine ⟨?_, ?_, ?_⟩
      · simpa [stepOpened, hk] using hend
      · refine hperm.trans ?_
        simpa [hk, SourceKind.isMark] using List.perm_middle.symm
      · intro k t ht hkt
        cases k with
        | zero =>
          obtain rfl : (token, i) = t := by simpa using ht
          simp [hk] at hkt
        | succ k => simpa [stepOpened, hk] using hpair k t (by simpa using ht) hkt
    · rename_i hk
      split at h
      · simp at h
      · rename_i first b opened'
        split at h
        · simp at h
        · rename_i node hnode
          cases hp : pairMarks rest opened' with
          | error e => simp [hp, bind, Except.bind] at h
          | ok pairs' =>
            simp only [hp, bind, Except.bind, pure, Except.pure, Except.ok.injEq] at h
            subst h
            obtain ⟨hend, hperm, hpair⟩ := ih hp
            refine ⟨?_, ?_, ?_⟩
            · simpa [stepOpened, hk] using hend
            · simp only [List.map_cons, List.filter_cons, hk, SourceKind.isMark, if_true,
                List.cons_append]
              exact ((hperm.cons i).trans List.perm_middle.symm).cons b
            · intro k t ht hkt
              cases k with
              | zero =>
                obtain rfl : (token, i) = t := by simpa using ht
                exact ⟨b, opened'.map (·.2), node, by simp, hnode, by simp, by simp⟩
              | succ k =>
                obtain ⟨b', more, node', ho, hr, hb, ht'⟩ := hpair k t (by simpa using ht) hkt
                exact ⟨b', more, node', by simpa [stepOpened, hk] using ho, hr,
                  by simp [hb], by simp [ht']⟩
    · rename_i hb he
      obtain ⟨hend, hperm, hpair⟩ := ih h
      have hm : token.kind.isMark = false := SourceKind.isMark_eq_false hb he
      have hstep := stepOpened_of_not_mark (t := (token, i)) hm
      refine ⟨?_, ?_, ?_⟩
      · simpa [hstep] using hend
      · simpa [hm] using hperm
      · intro k t ht hkt
        cases k with
        | zero =>
          obtain rfl : (token, i) = t := by simpa using ht
          exact absurd hkt he
        | succ k => simpa [hstep] using hpair k t (by simpa using ht) hkt

namespace MarkedText

variable {m : MarkedText} {text : PreprocessedText}

/-- The positions of the marks that are open before a position, the innermost one first. -/
def opened (m : MarkedText) (i : Nat) : List Nat :=
  (m.tokens.toList.zipIdx.take i).foldl stepOpened []

theorem opened_succ {i : Nat} {token : SourceToken} (h : m.tokens[i]? = some token) :
    m.opened (i + 1) = stepOpened (m.opened i) (token, i) := by
  have hi : m.tokens.toList.zipIdx[i]? = some (token, i) := by simpa using h
  rw [opened, List.take_add_one, hi, Option.toList_some, List.foldl_append]
  rfl

theorem getElem?_setAll_of_not_mem {pairs : List (Nat × NodeId)} {marks : Array (Option NodeId)}
    {i : Nat} (hi : i ∉ pairs.map (·.1)) :
    (pairs.foldl (fun marks p => marks.setIfInBounds p.1 (some p.2)) marks)[i]? = marks[i]? := by
  induction pairs generalizing marks with
  | nil => rfl
  | cons p pairs ih =>
    rw [List.map_cons, List.mem_cons, not_or] at hi
    rw [List.foldl_cons, ih hi.2, Array.getElem?_setIfInBounds_ne (Ne.symm hi.1)]

theorem getElem?_setAll {pairs : List (Nat × NodeId)} {marks : Array (Option NodeId)}
    (hn : (pairs.map (·.1)).Nodup) {i : Nat} {node : NodeId} (hp : (i, node) ∈ pairs)
    (hi : i < marks.size) :
    (pairs.foldl (fun marks p => marks.setIfInBounds p.1 (some p.2)) marks)[i]? =
      some (some node) := by
  induction pairs generalizing marks with
  | nil => simp at hp
  | cons p pairs ih =>
    obtain ⟨hnot, hn⟩ := List.nodup_cons.mp hn
    rw [List.foldl_cons]
    rcases List.mem_cons.mp hp with rfl | hp
    · rw [getElem?_setAll_of_not_mem hnot, Array.getElem?_setIfInBounds_self_of_lt hi]
    · exact ih hn hp (by simpa using hi)

variable (h : ofText text = .ok m)

include h

theorem ofText_eq : m.text = text ∧ m.tokens = (SourceToken.ofText text.text).toArray ∧
    ∃ pairs, pairMarks (SourceToken.ofText text.text).zipIdx [] = .ok pairs ∧
      m.marks = pairs.foldl (fun marks p => marks.setIfInBounds p.1 (some p.2))
        (Array.replicate (SourceToken.ofText text.text).length none) := by
  rw [ofText] at h
  cases hp : pairMarks (SourceToken.ofText text.text).zipIdx [] with
  | error e => simp [hp, bind, Except.bind] at h
  | ok pairs =>
    simp only [hp, bind, Except.bind, pure, Except.pure, Except.ok.injEq] at h
    subst h
    exact ⟨rfl, rfl, pairs, rfl, rfl⟩

/-- **Nothing is open at the end** of a text whose marks could be paired. -/
theorem opened_size : m.opened m.tokens.size = [] := by
  obtain ⟨-, ht, pairs, hp, -⟩ := ofText_eq h
  have hlen : m.tokens.size = m.tokens.toList.zipIdx.length := by simp
  rw [opened, hlen, List.take_length, ht]
  simpa using (pairMarks_spec hp).1

/-- The mark of a token that is in a pair. -/
theorem mark?_of_mem {pairs : List (Nat × NodeId)}
    (hp : pairMarks (SourceToken.ofText text.text).zipIdx [] = .ok pairs) {i : Nat} {node : NodeId}
    (hi : (i, node) ∈ pairs) : m.mark? i = some node := by
  obtain ⟨-, ht, pairs', hp', hm⟩ := ofText_eq h
  obtain rfl : pairs' = pairs := Except.ok.inj (hp'.symm.trans hp)
  obtain ⟨-, hperm, -⟩ := pairMarks_spec hp
  have hmem : i ∈ ((SourceToken.ofText text.text).zipIdx.filter fun t => t.1.kind.isMark).map
      (·.2) := by
    have := hperm.subset (List.mem_map_of_mem (f := (·.1)) hi)
    simpa using this
  have hsub : (((SourceToken.ofText text.text).zipIdx.filter fun t => t.1.kind.isMark).map
      (·.2)).Sublist (List.range' 0 (SourceToken.ofText text.text).length) := by
    simpa using (List.filter_sublist (l := (SourceToken.ofText text.text).zipIdx)).map (·.2)
  have hnodup : (pairs'.map (·.1)).Nodup := by
    refine hperm.nodup_iff.mpr ?_
    simpa using hsub.nodup List.nodup_range'
  have hlt : i < (SourceToken.ofText text.text).length := by simpa using hsub.subset hmem
  rw [mark?, hm, getElem?_setAll hnodup hi (by simpa using hlt)]
  rfl

/-- **A closing mark** meets an open one, and both belong to the node it carries. -/
theorem opened_of_end {j : Nat} {token : SourceToken} (hj : m.tokens[j]? = some token)
    (hk : token.kind = .preprocEnd) :
    ∃ i more node, m.opened j = i :: more ∧
      readEndMark? token.text.toList = some node ∧ m.mark? i = some node ∧
      m.mark? j = some node := by
  obtain ⟨-, ht, pairs, hp, -⟩ := ofText_eq h
  obtain ⟨-, -, hpair⟩ := pairMarks_spec hp
  rw [ht] at hj
  obtain ⟨i, more, node, ho, hr, hi, hj'⟩ := hpair j (token, j) (by simpa using hj) hk
  refine ⟨i, more, node, ?_, (Option.filter_eq_some_iff.mp hr).1, mark?_of_mem h hp hi,
    mark?_of_mem h hp hj'⟩
  rw [opened, ht]
  simpa using ho

/-- An opening mark belongs to a node. -/
theorem mark?_of_begin {i : Nat} {token : SourceToken} (hi : m.tokens[i]? = some token)
    (hk : token.kind = .preprocBegin) : ∃ node, m.mark? i = some node := by
  obtain ⟨-, ht, pairs, hp, -⟩ := ofText_eq h
  obtain ⟨-, hperm, -⟩ := pairMarks_spec hp
  have hmem : i ∈ pairs.map (·.1) := by
    refine hperm.mem_iff.mpr ?_
    rw [ht] at hi
    have hz : (token, i) ∈ (SourceToken.ofText text.text).zipIdx :=
      List.mk_mem_zipIdx_iff_getElem?.mpr (by simpa using hi)
    simpa using ⟨token, hz, by simp [hk, SourceKind.isMark]⟩
  obtain ⟨⟨i, node⟩, hin, rfl⟩ := List.mem_map.mp hmem
  exact ⟨node, mark?_of_mem h hp hin⟩

/-- The tokens of a marked text stand one behind the other. -/
theorem noLater_tokens {i j : Nat} {t u : SourceToken} (hi : m.tokens[i]? = some t)
    (hj : m.tokens[j]? = some u) (hij : i ≤ j) : NoLater t.begins u.begins := by
  obtain ⟨-, ht, -⟩ := ofText_eq h
  rw [ht] at hi hj
  rcases Nat.lt_or_eq_of_le hij with hlt | rfl
  · have hp := SourceKind.lexicon.pairwise_tokens text.text
    obtain ⟨hi', rfl⟩ := List.getElem?_eq_some_iff.mp (by simpa using hi)
    obtain ⟨hj', rfl⟩ := List.getElem?_eq_some_iff.mp (by simpa using hj)
    exact List.pairwise_iff_getElem.mp hp i j hi' hj' hlt
  · obtain rfl : t = u := Option.some.inj (hi.symm.trans hj)
    exact .refl _

end MarkedText

/-- Does the marked text of a preprocessed text pass a test? -/
def passesMarked (p : PreprocessedText) (test : MarkedText → Bool) : Bool :=
  match MarkedText.ofText p with
  | .ok m => test m
  | .error _ => false

theorem exists_of_passesMarked {p : PreprocessedText} {test : MarkedText → Bool}
    (h : passesMarked p test = true) : ∃ m, MarkedText.ofText p = .ok m ∧ test m = true := by
  unfold passesMarked at h
  split at h
  · exact ⟨_, ‹_›, h⟩
  · cases h

end Verilog
