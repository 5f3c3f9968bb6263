import Mathlib.Algebra.Order.BigOperators.Group.List
import Mathlib.Algebra.Order.Group.Nat
import Verilog.Proofs.Preprocess.Origin
import Verilog.Proofs.Preprocess.Passage
import Verilog.Proofs.Source.Feeds

/-!
# Texts that end with a line

A text whose last character is a line feed comes out as one that ends with a line, whatever its last
piece is (`endsLine_foldlM`): a token that is copied keeps the line feed, and a directive or macro
use has its line feeds made up for at the end. Nothing but marks may come behind that.
-/

namespace Verilog

open Preprocessing Step

/-- Does a text end with a line, but for marks and more line feeds behind it? -/
def EndsLine (s : List Char) : Prop := ∃ v r, s = v ++ '\n' :: r ∧ Filler r

namespace EndsLine

variable {s : List Char}

theorem of_getLast? (h : s.getLast? = some '\n') : EndsLine s := by
  obtain ⟨v, rfl⟩ := List.getLast?_eq_some_iff.mp h
  exact ⟨v, [], rfl, .nil⟩

theorem of_feeds {n : Nat} (h : n ≠ 0) : EndsLine (List.replicate n '\n') := by
  obtain ⟨n, rfl⟩ := Nat.exists_eq_succ_of_ne_zero h
  exact ⟨[], List.replicate n '\n', List.replicate_succ, .of_feeds n⟩

theorem append_left (h : EndsLine s) (u : List Char) : EndsLine (u ++ s) := by
  obtain ⟨v, r, rfl, hr⟩ := h
  exact ⟨u ++ v, r, by rw [List.append_assoc], hr⟩

theorem append_filler (h : EndsLine s) {a : List Char} (ha : Filler a) : EndsLine (s ++ a) := by
  obtain ⟨v, r, rfl, hr⟩ := h
  exact ⟨v, r ++ a, by rw [List.append_assoc, List.cons_append], hr.append ha⟩

end EndsLine

/-! ### Programs that write a line -/

namespace Preprocessing

variable {α β : Type} {x : Preprocessing α}

/-- **Does a program end with a line what it writes?** -/
def WritesLine (x : Preprocessing α) : Prop :=
  ∀ st a after, x st = .ok a after →
    ∃ s, after.text.toList = st.text.toList ++ s ∧ EndsLine s

namespace WritesLine

theorem emit {s : String} (h : EndsLine s.toList) : WritesLine (emit s) := by
  rintro st a after hrun
  obtain ⟨-, rfl⟩ := EStateM.Result.ok.inj hrun
  exact ⟨s.toList, String.toList_append, h⟩

/-- A program behind one that only adds to the text. -/
theorem behind {F : Session → Session → Prop} {f : α → Preprocessing β}
    (hx : Composed F Lengthens x) (hf : ∀ a, WritesLine (f a)) : WritesLine (x >>= f) := by
  intro st b after hrun
  obtain ⟨a, mid, hmid, hrest⟩ := exists_of_bind hrun
  obtain ⟨u, hu, -⟩ := hx.keeps_of_ok (allows_lengthens.frame 0) hmid
  obtain ⟨s, hs, hline⟩ := hf a mid b after hrest
  exact ⟨u ++ s, by rw [hs, hu, List.append_assoc], hline.append_left u⟩

theorem andReturn (hx : WritesLine x) (f : α → β) : WritesLine (do let a ← x; return f a) := by
  intro st b after hrun
  obtain ⟨a, mid, hmid, hrest⟩ := exists_of_bind hrun
  obtain ⟨-, rfl⟩ := EStateM.Result.ok.inj hrest
  exact hx st a mid hmid

end WritesLine

end Preprocessing

namespace DirectiveText

variable {d : DirectiveText} {t : ParseTree} {scope : ScanScope} {includer : Includer}

/-! ### The last piece -/

/-- Does the token at a position end with a line feed? -/
def FeedsAt (d : DirectiveText) (i : Nat) : Prop :=
  ∃ token, d.tokens[i]? = some token ∧ token.text.toList.getLast? = some '\n'

theorem FeedsAt.newlinesOf_ne_zero {i : Nat} (h : d.FeedsAt i) : d.newlinesOf i ≠ 0 := by
  obtain ⟨token, htoken, hlast⟩ := h
  rw [newlinesOf, htoken]
  exact (List.count_pos_iff.mpr (List.mem_of_getLast? hlast)).ne'

theorem writesLine_copyToken {i : Nat} (h : d.FeedsAt i) : WritesLine (d.copyToken scope i) := by
  have hcount := h.newlinesOf_ne_zero
  obtain ⟨token, htoken, hlast⟩ := h
  have hfeeds : WritesLine (emitNewlines token.newlineCount) := by
    rw [newlinesOf, htoken] at hcount
    exact .emit (by simpa using .of_feeds hcount)
  rw [copyToken, htoken]
  dsimp only
  split
  · split
    · exact .behind (F := Session.UpToStopping) (composed_report _ _) fun _ => hfeeds
    · exact hfeeds
  · split
    · exact hfeeds
    · split
      · exact .emit (.of_getLast? rfl)
      · exact .emit (.of_getLast? hlast)

/-- A directive or use has its line feeds behind what it does. -/
theorem writesLine_between {α : Type} {F : Session → Session → Prop}
    {inner : NodeId → Preprocessing α} (hi : ∀ node, Composed F Lengthens (inner node))
    (hn : d.newlinesIn t ≠ 0) (marked : Bool) : WritesLine (do
      let node ← d.openMarks marked t
      let a ← inner node
      d.closeMarks marked node t
      return a) := by
  intro st a after hrun
  obtain ⟨node, nodes, hopen⟩ := d.openMarks_spec t marked st
  rw [bind_of_ok hopen] at hrun
  have hclose : WritesLine (d.closeMarks marked node t) := by
    intro mid _ last hmid
    obtain ⟨-, rfl⟩ := EStateM.Result.ok.inj (hmid.symm.trans (d.closeMarks_spec t marked node mid))
    refine ⟨List.replicate (d.newlinesIn t) '\n' ++ d.backMark marked node, by simp,
      (EndsLine.of_feeds hn).append_filler ?_⟩
    rw [backMark]
    split
    · exact .of_mark (.inr ⟨node, rfl⟩)
    · exact .nil
  have hrest : WritesLine (do
      let a ← inner node
      d.closeMarks marked node t
      return a) := .behind (hi node) fun a => hclose.andReturn fun _ => a
  obtain ⟨s, hs, hline⟩ := hrest _ a after hrun
  exact ⟨d.frontMark marked ++ s, by rw [hs]; simp, hline.append_left _⟩

/-- **A piece that ends with a line** comes out so. -/
theorem writesLine_scanPiece (hi : Including Session.UpToStopping (fun _ => Lengthens) includer)
    {i : Nat} (hlast : t.last? = some i) (hshape : t = .leaf i ∨ ∃ kind ts, t = .node kind ts ∧
      (kind.isDirective = true ∨ kind.isMacroUse = true ∨ ts = [.leaf i]))
    (hfeeds : d.FeedsAt i) : WritesLine (d.scanPiece expandText includer scope t) := by
  have hexpands : Expanding Session.UpToStopping expandText := expanding_expandWithin _
  have hlines : d.newlinesIn t ≠ 0 := by
    have hmem : i ∈ t.leaves := List.mem_of_getLast? (t.last?_eq ▸ hlast)
    have hle := List.le_sum_of_mem (List.mem_map_of_mem (f := d.newlinesOf) hmem)
    have := hfeeds.newlinesOf_ne_zero
    have heq : d.newlinesIn t = (t.leaves.map d.newlinesOf).sum := d.newlinesAt_eq_sum t.leaves
    omega
  obtain rfl | ⟨kind, ts, rfl, hkind⟩ := hshape
  · exact (writesLine_copyToken hfeeds).andReturn _
  · unfold scanPiece
    dsimp only
    split
    · rw [scanDirective_eq]
      exact writesLine_between (fun node => composed_doDirective allows_lengthens hexpands hi
        (p := node) scope kind node fun _ => rfl) hlines true
    · rename_i hdirective
      split
      · rw [scanUse_eq]
        exact (writesLine_between (F := Session.UpToStopping) (fun node => composed_doUse
          allows_lengthens hexpands _ (p := node) node fun _ _ => .of_eq rfl rfl) hlines
            _).andReturn _
      · rename_i huse
        obtain rfl := (hkind.resolve_left hdirective).resolve_left huse
        exact ((writesLine_copyToken hfeeds).andReturn id).andReturn _

end DirectiveText

/-! ### The last piece of a text -/

theorem DirectiveGrammar.Tiles.eq_nil {before : List DirectiveToken} {ts : List ParseTree}
    (h : Tiles before ts []) : ts = [] := by
  generalize hrest : [] = rest at h
  cases h with
  | nil => rfl
  | cons hpiece => simp [hpiece.nonempty] at hrest

/-- Where there are tokens there is a last piece, and its last leaf is the last token. -/
theorem DirectiveGrammar.Tiles.exists_last {before rest : List DirectiveToken}
    {ts : List ParseTree} (h : Tiles before ts rest) (hne : rest ≠ []) :
    ∃ us t, ts = us ++ [t] ∧ t.last? = some (before.length + rest.length - 1) ∧
      (t = .leaf (before.length + rest.length - 1) ∨ ∃ kind ts, t = .node kind ts ∧
        (kind.isDirective = true ∨ kind.isMacroUse = true ∨
          ts = [.leaf (before.length + rest.length - 1)])) := by
  induction h with
  | nil => exact absurd rfl hne
  | @cons before taken rest t ts hpiece htiles ih =>
    by_cases hrest : rest = []
    · subst hrest
      obtain rfl := htiles.eq_nil
      rw [List.append_nil]
      refine ⟨[], t, rfl, hpiece.last, ?_⟩
      rcases hpiece.shape with ⟨rfl, hone⟩ | ⟨kind, ts, rfl, hdirective | huse | ⟨rfl, hone⟩⟩
      · exact .inl (by rw [hone, Nat.add_sub_cancel])
      · exact .inr ⟨kind, ts, rfl, .inl hdirective⟩
      · exact .inr ⟨kind, ts, rfl, .inr (.inl huse)⟩
      · exact .inr ⟨kind, _, rfl, .inr (.inr (by rw [hone, Nat.add_sub_cancel]))⟩
    · obtain ⟨us, u, rfl, hlast, hshape⟩ := ih hrest
      rw [List.length_append, Nat.add_assoc, ← List.length_append] at hlast hshape
      exact ⟨t :: us, u, rfl, hlast, hshape⟩

/-- The last token of a text that ends with a line does so. -/
theorem getLast?_signs {text : String} (h : text.toList.getLast? = some '\n') :
    ∃ kind s, (signs text)[(signs text).length - 1]? = some (kind, s) ∧
      s.toList.getLast? = some '\n' := by
  obtain hnil | ⟨front, token, htokens⟩ := (DirectiveToken.ofText text).eq_nil_or_concat
  · have htext : DirectiveToken.ofText text = [] → text.toList = [] := fun h => by
      rw [← Lexicon.flatMap_tokens DirectiveKind.lexicon text]
      exact congrArg (List.flatMap _) h
    simp [htext hnil] at h
  · refine ⟨token.kind, token.text, by simp [signs, htokens], ?_⟩
    have htext := Lexicon.flatMap_tokens DirectiveKind.lexicon text
    change (DirectiveToken.ofText text).flatMap _ = _ at htext
    have hne : token.text.toList ≠ [] := by
      have hmem : token ∈ DirectiveToken.ofText text := htokens ▸ by simp
      rcases Lexicon.class_of_mem_tokens hmem with ⟨-, c, hc⟩ | ⟨_, -, _, _, -, -, hne⟩
      · simp [hc]
      · exact hne
    rw [htokens, List.concat_eq_append, List.flatMap_append, List.flatMap_singleton] at htext
    rwa [← htext, List.getLast?_append_of_ne_nil _ hne] at h

/-- **A part of a text that ends with a line** comes out so. -/
theorem writesLine_part {part : String} (h : part.toList.getLast? = some '\n')
    {d : DirectiveText} {n : Nat}
    (hholds : ∀ i < (signs part).length, d.sign? (n + i) = (signs part)[i]?) {includer : Includer}
    (hi : Including Session.UpToStopping (fun _ => Lengthens) includer) (scope : ScanScope) :
    WritesLine (((piecesOf part).map (·.rename (n + ·))).foldlM
      (d.scanPiece expandText includer) scope) := by
  obtain ⟨kind, s, hsign, hlast⟩ := getLast?_signs h
  have hlength : (signs part).length = (DirectiveToken.ofText part).length := by simp [signs]
  have hne : DirectiveToken.ofText part ≠ [] := by
    intro hnil
    simp [signs, hnil] at hsign
  obtain ⟨us, t, hpieces, hleaf, hshape⟩ :=
    (DirectiveGrammar.tiles_parse (DirectiveToken.ofText part)).exists_last hne
  have hfeeds : d.FeedsAt (n + ((signs part).length - 1)) := by
    have := (List.getElem?_eq_some_iff.mp hsign).1
    have htoken := (hholds _ this).trans hsign
    rw [DirectiveText.sign?] at htoken
    obtain ⟨token, htoken, heq⟩ := Option.map_eq_some_iff.mp htoken
    exact ⟨token, htoken, by rwa [(Prod.mk.inj heq).2]⟩
  rw [piecesOf, hpieces, List.map_append, List.foldlM_append]
  refine .behind (F := Session.UpToStopping) (Composed.foldlM (fun scope u _ =>
    DirectiveText.composed_scanPiece allows_lengthens (fun _ => hangs_lengthens d u)
      (DirectiveText.expanding_expandWithin _) hi scope) _) fun scope' => ?_
  refine (DirectiveText.writesLine_scanPiece hi ?_ ?_ hfeeds).andReturn id
  · rw [ParseTree.last?_eq, ParseTree.leaves_rename, List.getLast?_map, ← ParseTree.last?_eq, hleaf,
      hlength]
    simp
  · simp only [List.length_nil, Nat.zero_add] at hshape
    rw [hlength]
    rcases hshape with rfl | ⟨kind, ts, rfl, hkind⟩
    · exact .inl rfl
    · refine .inr ⟨kind, _, rfl, ?_⟩
      exact hkind.imp_right (Or.imp_right fun hts => by rw [hts]; rfl)

end Verilog
