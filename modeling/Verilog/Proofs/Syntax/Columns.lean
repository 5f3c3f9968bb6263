import Verilog.Proofs.Location.Mapper
import Verilog.Proofs.Preprocess.Branch
import Verilog.Proofs.Preprocess.Nodes
import Verilog.Proofs.Syntax.Pairs
import Verilog.Proofs.Syntax.Transparent
import Verilog.Syntax.Columns

/-!
# Where the columns of a marked text come from

Column tracing pins every token of a marked text in turn, each pin on top of those before it. A pin
moves all that is behind it on its line, so what has to be known of the corrections made so far is
only what they are behind the last token: there they are the same from any column on, and move no
column out of the range in which columns are shown (`OffsetMap.SteadyFrom`). With columns that are
not too great this is kept from token to token (`MarkedText.Swept`), and since tokens stand one
behind the other, no pin touches a token that is pinned already.

So a mark comes from where its directive or use begins or ends, and any other token, between the
marks of a use on one line, from within the columns of the use (`comes_from_uses`). The node of such
a use takes a column. But the number in a mark may be anything if the source holds the delimiter of
marks, so the mark may name the node of the whole text; where that node takes no column, a token
comes from where it starts (`outside_filledLine`).
-/

namespace Verilog

/-! ### Columns behind all shifts -/

namespace OffsetMap

variable {o : OffsetMap} {line column target l c : Nat}

/-- **Are the corrections of a line the same from a column on**, and is none of the columns moved
out of the range of columns, as long as it is not too great itself? -/
structure SteadyFrom (o : OffsetMap) (line column : Nat) : Prop where
  same : ∀ c, column ≤ c → o.delta line c = o.delta line column
  low : 1 ≤ column + o.delta line column
  high : o.delta line column ≤ 32766

theorem SteadyFrom.corrected_eq (h : o.SteadyFrom line column) (hc : column ≤ 32767) :
    o.corrected line column = column + o.delta line column := by
  obtain ⟨-, hlow, hhigh⟩ := h
  exact wrapShift_eq (by omega) (by omega)

theorem SteadyFrom.shown (h : o.SteadyFrom line column) (hc : column ≤ 32767) :
    o.Shown line column := by
  have hhigh := h.high
  rw [Shown, h.corrected_eq hc, maxColumn]
  exact ⟨h.low, by omega⟩

theorem steadyFrom_empty (hc : 1 ≤ column) : ({} : OffsetMap).SteadyFrom line column :=
  have hzero (c : Nat) : ({} : OffsetMap).delta line c = 0 := rfl
  ⟨fun _ _ => rfl, by rw [hzero]; omega, by rw [hzero]; decide⟩

/-- A pin leaves the other lines as steady as they were. -/
theorem SteadyFrom.pin_of_ne (h : o.SteadyFrom l c) (hl : l ≠ line) (column target : Nat) :
    (o.pin line column target).SteadyFrom l c := by
  have hdelta (c : Nat) : (o.pin line column target).delta l c = o.delta l c := by
    rw [delta_pin, if_neg fun hn => hl hn.1, Int.add_zero, wrapShift_delta]
  refine ⟨fun c' hc => ?_, ?_, ?_⟩
  · rw [hdelta, hdelta, h.same c' hc]
  · rw [hdelta]
    exact h.low
  · rw [hdelta]
    exact h.high

/-- **Behind a pin a line is steady**, if the target is not too far behind the column. -/
theorem SteadyFrom.pin (h : o.SteadyFrom line column) (hc : column ≤ 32767) (hlow : 1 ≤ target)
    (hhigh : target ≤ column + 32766) (hcc : column ≤ c) :
    (o.pin line column target).SteadyFrom line c := by
  have hshown := column_of_shown (h.shown hc)
  have hdelta (c' : Nat) (hc' : column ≤ c') :
      (o.pin line column target).delta line c' = target - column := by
    rw [delta_pin, if_pos ⟨rfl, hc'⟩, h.same c' hc', hshown, h.corrected_eq hc,
      wrapShift_eq (by omega) (by omega)]
    omega
  refine ⟨fun c' hc' => ?_, ?_, ?_⟩
  · rw [hdelta c hcc, hdelta c' (hcc.trans hc')]
  · rw [hdelta c hcc]
    omega
  · rw [hdelta c hcc]
    omega

end OffsetMap

/-! ### Tracing token by token -/

namespace ColumnTrace

variable {t : ColumnTrace} {token : SourceToken} {nodes : NodeTable} {mark : Option NodeId}

/-- The target of a token that is no mark. -/
def target (t : ColumnTrace) (token : SourceToken) : Nat :=
  OffsetMap.clamp 1 maxColumn
    (confine t.regions.head? ((t.enterLine token).expected token.column))

theorem regions_enterLine (t : ColumnTrace) (token : SourceToken) :
    (t.enterLine token).regions = t.regions := by
  rw [enterLine]
  split <;> rfl

theorem offsets_enterLine (t : ColumnTrace) (token : SourceToken) :
    (t.enterLine token).offsets = t.offsets := by
  rw [enterLine]
  split <;> rfl

theorem step_begin (hk : token.kind = .preprocBegin) (id : NodeId) :
    t.step nodes token (some id) =
      { offsets := t.offsets.pin token.line token.column (max 1 (nodes.node id).column),
        regions := nodes.node id :: t.regions, column := token.endColumn,
        origin := (nodes.node id).column } := by
  simp only [step, hk, atMark, offsets_enterLine, regions_enterLine]

theorem step_end (hk : token.kind = .preprocEnd) (id : NodeId) :
    t.step nodes token (some id) =
      { offsets := t.offsets.pin token.line token.column (max 1 (nodes.node id).endColumn),
        regions := t.regions.tail, column := token.endColumn,
        origin := (nodes.node id).endColumn } := by
  simp only [step, hk, atMark, offsets_enterLine, regions_enterLine]

theorem step_plain (hk : token.kind.isMark = false) :
    t.step nodes token mark =
      { t.enterLine token with
        offsets := t.offsets.pin token.line token.column (t.target token) } := by
  simp only [step]
  split
  · rename_i h
    rw [h] at hk
    cases hk
  · rename_i h
    rw [h] at hk
    cases hk
  · rw [target, regions_enterLine, offsets_enterLine]

theorem one_le_target (t : ColumnTrace) (token : SourceToken) : 1 ≤ t.target token := by
  rw [target, OffsetMap.clamp, maxColumn]
  omega

theorem certain_enterLine (hcolumn : 1 ≤ t.column) (horigin : t.origin ≤ 32767)
    (token : SourceToken) :
    1 ≤ (t.enterLine token).column ∧ (t.enterLine token).origin ≤ 32767 := by
  rw [enterLine]
  split
  · exact ⟨Int.le_refl 1, (by decide : (1 : Int) ≤ 32767)⟩
  · exact ⟨hcolumn, horigin⟩

/-- A token that is counted from a certain column comes from no further behind than that is. -/
theorem expected_enterLine_le (hcolumn : 1 ≤ t.column) (horigin : t.origin ≤ 32767)
    (token : SourceToken) :
    (t.enterLine token).expected token.column ≤ token.column + 32766 := by
  obtain ⟨hcolumn, horigin⟩ := certain_enterLine hcolumn horigin token
  rw [expected]
  omega

/-- The target of a token is not too far behind the token. -/
theorem target_le (hcolumn : 1 ≤ t.column) (horigin : t.origin ≤ 32767)
    (hregions : ∀ n ∈ t.regions.head?, n.column ≤ 32767) (htoken : 1 ≤ token.column) :
    t.target token ≤ token.column + 32766 := by
  have hexpected := expected_enterLine_le hcolumn horigin token
  rw [target]
  generalize (t.enterLine token).expected token.column = e at hexpected ⊢
  cases hr : t.regions.head? with
  | none =>
    simp only [OffsetMap.clamp, confine]
    omega
  | some n =>
    have hn := hregions n hr
    simp only [OffsetMap.clamp, confine]
    split <;> omega

/-- **The target of a token in a region on one line** is a column of the region. -/
theorem target_of_region {n : Node} (hr : t.regions.head? = some n) (hline : n.line = n.endLine)
    (hkind : n.kind ≠ .ppIncludeDirective) (hlow : 1 ≤ n.column) (hhigh : n.column ≤ 32767)
    (hend : n.endColumn ≤ 32767) :
    n.column ≤ t.target token ∧ (t.target token < n.endColumn ∨
      n.endColumn ≤ n.column ∧ t.target token = n.column) := by
  rw [target, hr]
  generalize (t.enterLine token).expected token.column = e
  have hguard : (n.kind != .ppIncludeDirective && n.line == n.endLine) = true := by
    simp [hkind, hline]
  simp only [confine, hguard, if_true, OffsetMap.clamp, maxColumn]
  omega

end ColumnTrace

namespace MarkedText

variable {m : MarkedText} {p : PreprocessedText} {i j : Nat} {token : SourceToken}

/-- Column tracing after so many tokens. -/
def traced (m : MarkedText) (n : Nat) : ColumnTrace :=
  ((m.tokens.toList.zip m.marks.toList).take n).foldl (fun t x => t.step m.text.nodes x.1 x.2) {}

theorem offsets_eq_traced (m : MarkedText) : m.offsets = (m.traced m.tokens.size).offsets := by
  have hlen : (m.tokens.toList.zip m.marks.toList).length ≤ m.tokens.size := by
    rw [List.length_zip, Array.length_toList]
    exact Nat.min_le_left _ _
  rw [offsets, traced, List.take_of_length_le hlen, ← Array.foldl_toList, Array.toList_zip]

theorem size_marks (h : ofText p = .ok m) : m.marks.size = m.tokens.size := by
  obtain ⟨-, htokens, pairs, -, hmarks⟩ := ofText_eq h
  have hset (pairs : List (Nat × NodeId)) (marks : Array (Option NodeId)) :
      (pairs.foldl (fun marks p => marks.setIfInBounds p.1 (some p.2)) marks).size =
        marks.size := by
    induction pairs generalizing marks with
    | nil => rfl
    | cons q pairs ih => rw [List.foldl_cons, ih, Array.size_setIfInBounds]
  rw [hmarks, hset, htokens]
  simp

theorem traced_succ (h : ofText p = .ok m) (hi : m.tokens[i]? = some token) :
    m.traced (i + 1) = (m.traced i).step m.text.nodes token (m.mark? i) := by
  obtain ⟨hlt, -⟩ := Array.getElem?_eq_some_iff.mp hi
  have hmark : m.marks[i]? = some (m.mark? i) := by
    rw [mark?, Array.getElem?_eq_getElem (by rw [size_marks h]; exact hlt)]
    rfl
  have hzip : (m.tokens.toList.zip m.marks.toList)[i]? = some (token, m.mark? i) := by
    rw [List.getElem?_zip_eq_some]
    exact ⟨by simpa using hi, by simpa using hmark⟩
  rw [traced, List.take_add_one, hzip, Option.toList_some, List.foldl_append]
  rfl

/-! ### What is known between two tokens -/

/-- The node that an open mark belongs to. -/
def region (m : MarkedText) (b : Nat) : Node := m.text.nodes.node ((m.mark? b).getD 0)

/-- Is a column not too great? -/
def SmallColumn (column : Nat) : Prop := 1 ≤ column ∧ column ≤ 32767

/-- Are the columns of a marked text, and those of the nodes of its marks, not too great? -/
structure HasSmallColumns (m : MarkedText) : Prop where
  tokens : ∀ token ∈ m.tokens, token.column ≤ 32767
  nodes : ∀ mark ∈ m.marks, ∀ id ∈ mark,
    SmallColumn (m.text.nodes.node id).column ∧ SmallColumn (m.text.nodes.node id).endColumn

instance (m : MarkedText) : Decidable m.HasSmallColumns :=
  decidable_of_iff
    ((∀ token ∈ m.tokens, token.column ≤ 32767) ∧ ∀ mark ∈ m.marks, ∀ id ∈ mark,
      (1 ≤ (m.text.nodes.node id).column ∧ (m.text.nodes.node id).column ≤ 32767) ∧
        1 ≤ (m.text.nodes.node id).endColumn ∧ (m.text.nodes.node id).endColumn ≤ 32767)
    ⟨fun h => ⟨h.1, h.2⟩, fun h => ⟨h.tokens, h.nodes⟩⟩

theorem HasSmallColumns.column_le (hc : m.HasSmallColumns) (hi : m.tokens[i]? = some token) :
    token.column ≤ 32767 :=
  hc.tokens token (Array.mem_of_getElem? hi)

theorem HasSmallColumns.of_mark (hc : m.HasSmallColumns) {id : NodeId} (hi : m.mark? i = some id) :
    SmallColumn (m.text.nodes.node id).column ∧ SmallColumn (m.text.nodes.node id).endColumn :=
  hc.nodes (some id) (Array.mem_of_getElem? (Option.join_eq_some_iff.mp hi)) id rfl

/-- **Does a token come from where it should**, if it comes from a column? A mark comes from where
its node begins or ends, and any other token in a region on one line from a column of the region,
if it has columns. -/
structure ComesFrom (m : MarkedText) (i : Nat) (token : SourceToken) (column : Nat) : Prop where
  atBegin : token.kind = .preprocBegin →
    ∃ id, m.mark? i = some id ∧ column = (m.text.nodes.node id).column
  atEnd : token.kind = .preprocEnd →
    ∃ id, m.mark? i = some id ∧ column = (m.text.nodes.node id).endColumn
  inside : token.kind.isMark = false → ∀ b id, (m.opened i).head? = some b →
    m.mark? b = some id → (m.text.nodes.node id).line = (m.text.nodes.node id).endLine →
    (m.text.nodes.node id).kind ≠ .ppIncludeDirective →
    (m.text.nodes.node id).column ≤ column ∧ (column < (m.text.nodes.node id).endColumn ∨
      (m.text.nodes.node id).endColumn ≤ (m.text.nodes.node id).column ∧
        column = (m.text.nodes.node id).column)

/-- **What column tracing has done** after so many tokens. -/
structure Swept (m : MarkedText) (n : Nat) (t : ColumnTrace) : Prop where
  regions : t.regions = (m.opened n).map m.region
  column : 1 ≤ t.column
  origin : t.origin ≤ 32767
  /-- Behind the tokens so far lines are steady. -/
  steady : ∀ line column, (∀ (j : Nat) (token : SourceToken), j < n → m.tokens[j]? = some token →
    Earlier token.begins (line, column)) → 1 ≤ column → t.offsets.SteadyFrom line column
  /-- The tokens so far come from where they should. -/
  fixed : ∀ (j : Nat) (token : SourceToken), j < n → m.tokens[j]? = some token →
    m.ComesFrom j token (t.offsets.column token.line token.column)

/-- Columns of tokens count from one. -/
theorem one_le_columns (h : ofText p = .ok m) (hi : m.tokens[i]? = some token) :
    1 ≤ token.column ∧ 1 ≤ token.endColumn := by
  obtain ⟨-, htokens, -⟩ := ofText_eq h
  rw [htokens, List.getElem?_toArray] at hi
  obtain ⟨before, after, hsplit⟩ := List.append_of_mem (List.mem_of_getElem? hi)
  have hbegin := congrArg Prod.snd (Lexicon.begins_of_tokens hsplit)
  have hend := congrArg Prod.snd (Lexicon.ends_of_tokens hsplit)
  simp only [Token.begins, Token.ends, placeBehind] at hbegin hend
  omega

/-- A token begins before those behind it, if columns are not too great. -/
theorem HasSmallColumns.earlier (hc : m.HasSmallColumns) (h : ofText p = .ok m) {u : SourceToken}
    (hj : m.tokens[j]? = some token) (hi : m.tokens[i]? = some u) (hji : j < i) :
    Earlier token.begins u.begins := by
  have hsmall := hc.column_le hi
  obtain ⟨-, htokens, -⟩ := ofText_eq h
  rw [htokens, List.getElem?_toArray] at hi hj
  exact Lexicon.earlier_begins SourceKind.consuming_lexicon hji hj hi
    (by rw [maxColumn]; omega)

theorem swept_zero (m : MarkedText) : m.Swept 0 {} where
  regions := rfl
  column := Int.le_refl 1
  origin := by decide
  steady _ _ _ hc := OffsetMap.steadyFrom_empty hc
  fixed _ _ hj := absurd hj (Nat.not_lt_zero _)

/-- **One more token is pinned**, and those before it stay where they are. -/
theorem Swept.pin {t t' : ColumnTrace} {target : Nat} (hs : m.Swept i t) (h : ofText p = .ok m)
    (hc : m.HasSmallColumns) (hi : m.tokens[i]? = some token)
    (hoffsets : t'.offsets = t.offsets.pin token.line token.column target)
    (hlow : 1 ≤ target) (hhigh : target ≤ token.column + 32766)
    (hregions : t'.regions = (m.opened (i + 1)).map m.region) (hcolumn : 1 ≤ t'.column)
    (horigin : t'.origin ≤ 32767) (hfrom : m.ComesFrom i token target) : m.Swept (i + 1) t' := by
  have htoken := hc.column_le hi
  have hsteady : t.offsets.SteadyFrom token.line token.column :=
    hs.steady _ _ (fun j u hji hj => hc.earlier h hj hi hji) (one_le_columns h hi).1
  refine ⟨hregions, hcolumn, horigin, fun line column hbehind hpos => ?_, fun j u hji hj => ?_⟩
  · rw [hoffsets]
    by_cases hline : line = token.line
    · subst hline
      have hbehind := hbehind i token (Nat.lt_succ_self i) hi
      simp only [Earlier, Token.begins] at hbehind
      exact hsteady.pin htoken hlow hhigh (by omega)
    · refine (hs.steady line column (fun j u hji hj => ?_) hpos).pin_of_ne hline _ _
      exact hbehind j u (Nat.lt_succ_of_lt hji) hj
  · rw [hoffsets]
    rcases Nat.lt_succ_iff_lt_or_eq.mp hji with hji | rfl
    · have hearlier := hc.earlier h hj hi hji
      simp only [Earlier, Token.begins] at hearlier
      rw [OffsetMap.column_pin_of_not (by omega)]
      exact hs.fixed j u hji hj
    · obtain rfl : token = u := Option.some.inj (hi.symm.trans hj)
      rw [OffsetMap.column_pin_of_shown (hsteady.shown htoken) hlow (by rw [maxColumn]; omega)]
      exact hfrom

theorem HasSmallColumns.region (hc : m.HasSmallColumns) (b : Nat) :
    (m.region b).column ≤ 32767 := by
  rw [MarkedText.region]
  cases hb : m.mark? b with
  | none => exact Nat.zero_le _
  | some id => exact (hc.of_mark hb).1.2

/-- **Tracing one more token** goes on with what is known. -/
theorem Swept.step {t : ColumnTrace} (hs : m.Swept i t) (h : ofText p = .ok m)
    (hc : m.HasSmallColumns) (hi : m.tokens[i]? = some token) :
    m.Swept (i + 1) (t.step m.text.nodes token (m.mark? i)) := by
  have hpos := (one_le_columns h hi).1
  have hopened := opened_succ hi
  have hend : (1 : Int) ≤ token.endColumn := by exact_mod_cast (one_le_columns h hi).2
  by_cases hk : token.kind = .preprocBegin
  · obtain ⟨id, hid⟩ := mark?_of_begin h hi hk
    obtain ⟨hlow, hhigh⟩ := (hc.of_mark hid).1
    have horigin : ((m.text.nodes.node id).column : Int) ≤ 32767 := by omega
    rw [stepOpened, hk] at hopened
    rw [hid, ColumnTrace.step_begin hk, Nat.max_eq_right hlow]
    refine hs.pin h hc hi rfl hlow (by omega) ?_ hend horigin
      ⟨fun _ => ⟨id, hid, rfl⟩, fun hk' => ?_, fun hk' => ?_⟩
    · rw [hopened, List.map_cons, ← hs.regions, MarkedText.region, hid]
      rfl
    · exact absurd (hk.symm.trans hk') (by decide)
    · rw [hk] at hk'
      cases hk'
  by_cases hk' : token.kind = .preprocEnd
  · obtain ⟨b, more, id, hb, -, -, hid⟩ := opened_of_end h hi hk'
    obtain ⟨hlow, hhigh⟩ := (hc.of_mark hid).2
    have horigin : ((m.text.nodes.node id).endColumn : Int) ≤ 32767 := by omega
    rw [stepOpened, hk'] at hopened
    rw [hid, ColumnTrace.step_end hk', Nat.max_eq_right hlow]
    refine hs.pin h hc hi rfl hlow (by omega) ?_ hend horigin
      ⟨fun hb => absurd hb hk, fun _ => ⟨id, hid, rfl⟩, fun hplain => ?_⟩
    · rw [hopened, List.map_tail, ← hs.regions]
    · rw [hk'] at hplain
      cases hplain
  have hplain := SourceKind.isMark_eq_false hk hk'
  have hregion : ∀ n ∈ t.regions.head?, n.column ≤ 32767 := by
    rw [hs.regions, List.head?_map]
    intro n hn
    obtain ⟨b, -, rfl⟩ := Option.map_eq_some_iff.mp hn
    exact hc.region b
  have hcertain := ColumnTrace.certain_enterLine hs.column hs.origin token
  rw [ColumnTrace.step_plain hplain]
  refine hs.pin h hc hi rfl (ColumnTrace.one_le_target t token)
    (ColumnTrace.target_le hs.column hs.origin hregion hpos) ?_ hcertain.1 hcertain.2
    ⟨fun hb => absurd hb hk, fun he => absurd he hk', fun _ b id hb hid hline hkind => ?_⟩
  · rw [hopened, stepOpened_of_not_mark hplain, ← hs.regions]
    exact ColumnTrace.regions_enterLine t token
  · obtain ⟨⟨hlow, hhigh⟩, -, hlast⟩ := hc.of_mark hid
    refine ColumnTrace.target_of_region ?_ hline hkind hlow hhigh hlast
    rw [hs.regions, List.head?_map, hb, Option.map_some, MarkedText.region, hid]
    rfl

/-- **What column tracing has done** in the end. -/
theorem swept_traced (h : ofText p = .ok m) (hc : m.HasSmallColumns) (hi : i ≤ m.tokens.size) :
    m.Swept i (m.traced i) := by
  induction i with
  | zero => exact swept_zero m
  | succ i ih =>
    have htoken : m.tokens[i]? = some m.tokens[i] :=
      Array.getElem?_eq_getElem (Nat.lt_of_succ_le hi)
    rw [traced_succ h htoken]
    exact (ih (Nat.le_of_succ_le hi)).step h hc htoken

end MarkedText

/-- **Macro text comes from its use.** In a preprocessed text whose marks can be paired, with
columns that are not too great, a mark comes from where its node begins or ends, and any other token
whose innermost region is a node on one line and no inclusion comes from within the columns of the
node. Only the node of the whole text may have none, and then the token comes from where it starts.
-/
theorem comes_from_uses {path text : String} {s s' : Session} {p : PreprocessedText}
    {m : MarkedText} (h : preprocessText path text s = .ok p s') (hm : MarkedText.ofText p = .ok m)
    (hc : m.HasSmallColumns) {i : Nat} {token : SourceToken} (hi : m.tokens[i]? = some token) :
    (token.kind = .preprocBegin → ∃ id, m.mark? i = some id ∧
      m.offsets.column token.line token.column = (p.nodes.node id).column) ∧
    (token.kind = .preprocEnd → ∃ id, m.mark? i = some id ∧
      m.offsets.column token.line token.column = (p.nodes.node id).endColumn) ∧
    (token.kind ≠ .preprocBegin → token.kind ≠ .preprocEnd → ∀ b id,
      (m.opened i).head? = some b → m.mark? b = some id →
      (p.nodes.node id).line = (p.nodes.node id).endLine →
      (p.nodes.node id).kind ≠ .ppIncludeDirective →
      (p.nodes.node id).column ≤ m.offsets.column token.line token.column ∧
        (m.offsets.column token.line token.column < (p.nodes.node id).endColumn ∨
          id = 1 ∧ (p.nodes.node id).endColumn ≤ (p.nodes.node id).column ∧
            m.offsets.column token.line token.column = (p.nodes.node id).column)) := by
  obtain ⟨rfl, -⟩ := MarkedText.ofText_eq hm
  obtain ⟨hlt, -⟩ := Array.getElem?_eq_some_iff.mp hi
  have hfrom := (MarkedText.swept_traced hm hc (Nat.le_refl _)).fixed i token hlt hi
  rw [← MarkedText.offsets_eq_traced] at hfrom
  refine ⟨hfrom.atBegin, hfrom.atEnd, fun hb he b id hopen hid hline hkind => ?_⟩
  obtain ⟨hlow, hcolumn⟩ :=
    hfrom.inside (SourceKind.isMark_eq_false hb he) b id hopen hid hline hkind
  refine ⟨hlow, hcolumn.imp_right fun hempty => ⟨?_, hempty⟩⟩
  -- a node of a directive or use would take a column
  by_contra hne
  obtain ⟨⟨hpos, -⟩, -, hlast⟩ := hc.of_mark hid
  have hwide := wide_of_preprocessText h hne hline hpos (by rw [maxColumn]; omega)
  exact absurd hempty.1 (Nat.not_le_of_gt hwide)

/-- A text in which a macro stands for more than its use takes. -/
def longExpansion : String := "`define M wide_name\nmodule `M; endmodule\n"

theorem comes_from_uses_longExpansion : ∃ p s' m token,
    preprocessText "test.sv" longExpansion bareSession = .ok p s' ∧
    MarkedText.ofText p = .ok m ∧ m.HasSmallColumns ∧ m.tokens[6]? = some token ∧
    token.text = "wide_name" ∧ token.kind ≠ .preprocBegin ∧ token.kind ≠ .preprocEnd ∧
    (m.opened 6).head? = some 5 ∧ m.mark? 5 = some 5 ∧
    (p.nodes.node 5).line = (p.nodes.node 5).endLine ∧
    (p.nodes.node 5).kind ≠ .ppIncludeDirective ∧
    (p.nodes.node 5).column ≤ m.offsets.column token.line token.column ∧
      (m.offsets.column token.line token.column < (p.nodes.node 5).endColumn ∨
        5 = 1 ∧ (p.nodes.node 5).endColumn ≤ (p.nodes.node 5).column ∧
          m.offsets.column token.line token.column = (p.nodes.node 5).column) := by
  obtain ⟨p, s', hpre, htest⟩ := exists_of_preprocesses longExpansion
    (fun p => passesMarked p fun m =>
      decide (m.HasSmallColumns ∧ (m.opened 6).head? = some 5 ∧ m.mark? 5 = some 5 ∧
        (m.text.nodes.node 5).line = (m.text.nodes.node 5).endLine ∧
        (m.text.nodes.node 5).kind ≠ .ppIncludeDirective ∧
        (m.tokens[6]?).any fun (t : SourceToken) => decide (t.text = "wide_name" ∧
          t.kind ≠ .preprocBegin ∧ t.kind ≠ .preprocEnd))) (by decide +kernel)
  obtain ⟨m, hm, htest⟩ := exists_of_passesMarked htest
  obtain ⟨hc, hopened, hmark, hline, hkind, hany⟩ := of_decide_eq_true htest
  obtain ⟨token, hi, htoken⟩ := Option.any_eq_true _ _ |>.mp hany
  obtain ⟨htext, hbegin, hend⟩ := of_decide_eq_true htoken
  obtain ⟨rfl, -⟩ := MarkedText.ofText_eq hm
  have hinside := (comes_from_uses hpre hm hc hi).2.2 hbegin hend 5 5 hopened hmark hline hkind
  exact ⟨_, s', m, token, hpre, hm, hc, hi, htext, hbegin, hend, hopened, hmark, hline, hkind,
    hinside⟩

/-! ### A node without columns -/

/-- Marks of the node of the whole text, and a directive. -/
def markedFront : List Char := "\u0001PPB\u0001a\u0001PPE1\u0001`ifdef A".toList

/-- A text on one line that ends in blanks. -/
def filledLine (s : List Char) : String := String.ofList (markedFront ++ ' ' :: s)

/-- The tokens of that text. -/
def filledTokens (s : List Char) : List DirectiveToken := Token.placeAll .start
  [(.other, ['\u0001']), (.identifier, "PPB".toList), (.other, ['\u0001']), (.identifier, ['a']),
    (.other, ['\u0001']), (.identifier, "PPE1".toList), (.other, ['\u0001']),
    (.ifdef, "`ifdef".toList), (.spaces, [' ']), (.identifier, ['A']), (.spaces, ' ' :: s)]

/-- That text while it is preprocessed. -/
def filledText (s : List Char) : DirectiveText :=
  ⟨(filledTokens s).toArray, some "test.sv", 1, true⟩

/-- The pieces of that text before the blanks. -/
def piecesBefore : List ParseTree :=
  [.leaf 0, .leaf 1, .leaf 2, .leaf 3, .leaf 4, .leaf 5, .leaf 6,
    .node .ppIfdefDirective [.leaf 7, .leaf 8, .node .ppPsIdentifier [.leaf 9]]]

section

variable {s : List Char}

/-- A text of blanks is one token. -/
theorem token?_blanks (hs : ∀ c ∈ s, isSpace c = true) :
    DirectiveKind.lexicon.token? (' ' :: s) = some (.spaces, ' ' :: s, []) := by
  let classes := DirectiveKind.lexicon.classes
  have hfront : ∀ cls ∈ classes.take 10, cls.1.Refuses ' ' = true := by decide
  have hmatch : (Pattern.run1 isSpace).split (' ' :: s) = some (' ' :: s, []) := by
    have hrun := Pattern.split_run hs (fun c (hc : c ∈ [].head?) => by cases hc)
    rw [List.append_nil] at hrun
    exact Pattern.split_one_seq rfl hrun
  have hfirst : Lexicon.firstMatch classes (' ' :: s) = some (.spaces, ' ' :: s, []) :=
    (Lexicon.firstMatch_of_refuses hfront).trans (Lexicon.firstMatch_cons hmatch)
  rw [Lexicon.token?, Lexicon.choose_eq_firstMatch DirectiveKind.consuming_lexicon, hfirst]
  rfl

theorem ofText_filledLine (hs : ∀ c ∈ s, isSpace c = true) :
    DirectiveToken.ofText (filledLine s) = filledTokens s := by
  let rest (n : Nat) : List Char := markedFront.drop n ++ ' ' :: s
  have hread : DirectiveKind.lexicon.Reads (rest 0)
      [(.other, ['\u0001']), (.identifier, "PPB".toList), (.other, ['\u0001']),
        (.identifier, ['a']), (.other, ['\u0001']), (.identifier, "PPE1".toList),
        (.other, ['\u0001']), (.ifdef, "`ifdef".toList), (.spaces, [' ']), (.identifier, ['A']),
        (.spaces, ' ' :: s)] [] := by
    refine @Lexicon.Reads.more _ _ _ _ (rest 1) _ _ _ rfl ?_
    refine @Lexicon.Reads.more _ _ _ _ (rest 4) _ _ _ rfl ?_
    refine @Lexicon.Reads.more _ _ _ _ (rest 5) _ _ _ rfl ?_
    refine @Lexicon.Reads.more _ _ _ _ (rest 6) _ _ _ rfl ?_
    refine @Lexicon.Reads.more _ _ _ _ (rest 7) _ _ _ rfl ?_
    refine @Lexicon.Reads.more _ _ _ _ (rest 11) _ _ _ rfl ?_
    refine @Lexicon.Reads.more _ _ _ _ (rest 12) _ _ _ rfl ?_
    refine @Lexicon.Reads.more _ _ _ _ (rest 18) _ _ _ rfl ?_
    refine @Lexicon.Reads.more _ _ _ _ (rest 19) _ _ _ rfl ?_
    refine @Lexicon.Reads.more _ _ _ _ (rest 20) _ _ _ rfl ?_
    exact .more (token?_blanks hs) (.stop rfl)
  have hpieces := ((Lexicon.reads_iff DirectiveKind.consuming_lexicon).mp hread).1
  rw [DirectiveToken.ofText, Lexicon.tokens, filledLine, String.toList_ofList, filledTokens,
    hpieces]
  rfl

theorem children_filledLine (s : List Char) :
    (DirectiveGrammar.parse (filledTokens s)).children = piecesBefore ++ [.leaf 10] := by
  have hkinds : (filledTokens s).zipIdx.map (fun t => (t.2, t.1.kind)) =
      [(0, .other), (1, .identifier), (2, .other), (3, .identifier), (4, .other), (5, .identifier),
        (6, .other), (7, .ifdef), (8, .spaces), (9, .identifier), (10, .spaces)] := rfl
  rw [DirectiveGrammar.parse, hkinds]
  decide +kernel

/-- There are no line feeds in the blanks. -/
theorem newline_not_mem (hs : ∀ c ∈ s, isSpace c = true) : '\n' ∉ ' ' :: s := by
  rw [List.mem_cons, not_or]
  exact ⟨by decide, fun h => absurd (hs _ h) (by decide)⟩

/-- Blanks in inactive text leave nothing. -/
theorem scanPiece_blanks (hs : ∀ c ∈ s, isSpace c = true) (expand : Expander) (includer : Includer)
    {scope : ScanScope} (hscope : scope.conditions.active = false) (st : PreprocessState) :
    (filledText s).scanPiece expand includer scope (.leaf 10) st = .ok scope st := by
  have hcount : newlines (String.ofList (' ' :: s)).toList = 0 := by
    rw [String.toList_ofList, newlines, List.count_eq_zero]
    exact newline_not_mem hs
  have hnone : (filledText s).newlinesAt [10] = 0 := (Nat.zero_add _).trans hcount
  have hcopy : (filledText s).copyToken scope 10 st = .ok () (DirectiveText.feed _ st) :=
    DirectiveText.copyToken_inactive hscope 10
  rw [hnone, DirectiveText.feed_zero] at hcopy
  exact Step.bind_of_ok hcopy

/-- Where sixteen bits do not show the length of the line, the node of the whole text ends where it
starts, as that of an empty text does. -/
theorem topNode_filledLine (hs : ∀ c ∈ s, isSpace c = true) (hlen : s.length = 65515)
    (file : Option String) : topNode (filledLine s).toList file = topNode [] file := by
  have hlength : (markedFront ++ ' ' :: s).length = 65536 := by
    rw [List.length_append, List.length_cons, hlen]
    decide
  have hnewline : '\n' ∉ markedFront ++ ' ' :: s := by
    rw [List.mem_append, not_or]
    exact ⟨by decide, newline_not_mem hs⟩
  have hlines : textLines (filledLine s).toList = [markedFront ++ ' ' :: s] := by
    rw [filledLine, String.toList_ofList, textLines_of_line (by simp) hnewline]
  rw [topNode, hlines]
  simp only [List.getLast?_singleton, Option.getD_some, hlength]
  rfl

/-- What includes files in a session without any. -/
def bareIncluder : Includer :=
  includeWithin bareSession.config.includeDirs (bareSession.files.entries.length + 1)

/-- Does what that text is preprocessed to pass a test, if it is as long as that and its blanks are
passed over? -/
def leavesMarks (s : List Char) (test : PreprocessedText → Bool) : Bool :=
  match piecesBefore.foldlM ((filledText s).scanPiece expandText bareIncluder) {}
    (.start "test.sv" "" bareSession) with
  | .ok scope mid => !scope.conditions.active &&
    match (filledText s).reportOpenChains scope.conditions mid with
    | .ok _ after => test ⟨some "test.sv", after.text, after.nodes, after.lines,
        after.includes.toList, after.macros, after.states.toList⟩
    | .error _ _ => false
  | .error _ _ => false

theorem exists_of_leavesMarks (hs : ∀ c ∈ s, isSpace c = true) (hlen : s.length = 65515)
    (test : PreprocessedText → Bool) (h : leavesMarks s test = true) :
    ∃ p s', preprocessText "test.sv" (filledLine s) bareSession = .ok p s' ∧ test p = true := by
  have hstart : PreprocessState.start "test.sv" (filledLine s) bareSession =
      .start "test.sv" "" bareSession := by
    rw [PreprocessState.start, topNode_filledLine hs hlen]
    rfl
  have hd : DirectiveText.ofText (filledLine s) (some "test.sv") 1 true = filledText s := by
    rw [DirectiveText.ofText, ofText_filledLine hs, filledText]
  unfold leavesMarks at h
  split at h
  · rename_i scope mid hfold
    rw [Bool.and_eq_true, Bool.not_eq_true'] at h
    obtain ⟨hscope, h⟩ := h
    split at h
    · rename_i after hafter
      refine ⟨_, after.session, ?_, h⟩
      have hscan : scanFile "test.sv" (filledLine s) bareSession (.start "test.sv" "" bareSession) =
          .ok () after := by
        have htokens : (filledText s).tokens.toList = filledTokens s := List.toList_toArray
        have hrun : (piecesBefore ++ [ParseTree.leaf 10]).foldlM
            ((filledText s).scanPiece expandText bareIncluder) {}
            (.start "test.sv" "" bareSession) = .ok scope mid := by
          rw [List.foldlM_append]
          exact (Step.bind_of_ok hfold).trans (Step.bind_of_ok (scanPiece_blanks hs _ _ hscope mid))
        rw [scanFile, hd, DirectiveText.scan, htokens, children_filledLine]
        exact (Step.bind_of_ok hrun).trans hafter
      rw [preprocessText_eq, hstart, hscan]
    · cases h
  · cases h

end

/-- **A token that comes from no column of its region.** The marks around it are written in the
source and name the node of the whole text, which stands on one line and ends where it starts, since
the length of the line runs over. -/
theorem outside_filledLine : ∃ p s' m token,
    preprocessText "test.sv" (filledLine (List.replicate 65515 ' ')) bareSession = .ok p s' ∧
    MarkedText.ofText p = .ok m ∧ m.HasSmallColumns ∧
    (∀ t ∈ m.tokens, t.endColumn ≤ 32767) ∧ m.tokens[1]? = some token ∧
    token.kind ≠ .preprocBegin ∧ token.kind ≠ .preprocEnd ∧
    (m.opened 1).head? = some 0 ∧ m.mark? 0 = some 1 ∧
    (p.nodes.node 1).line = (p.nodes.node 1).endLine ∧
    (p.nodes.node 1).kind ≠ .ppIncludeDirective ∧
    ¬((p.nodes.node 1).column ≤ m.offsets.column token.line token.column ∧
      m.offsets.column token.line token.column < (p.nodes.node 1).endColumn) := by
  have hs : ∀ c ∈ List.replicate 65515 ' ', isSpace c = true := by
    intro c hc
    rw [List.eq_of_mem_replicate hc]
    rfl
  obtain ⟨p, s', hpre, htest⟩ := exists_of_leavesMarks hs List.length_replicate
    (fun p => passesMarked p fun m => decide (m.HasSmallColumns ∧
      (∀ t ∈ m.tokens, t.endColumn ≤ 32767) ∧ (m.opened 1).head? = some 0 ∧ m.mark? 0 = some 1 ∧
      (m.text.nodes.node 1).line = (m.text.nodes.node 1).endLine ∧
      (m.text.nodes.node 1).kind ≠ .ppIncludeDirective ∧ (m.text.nodes.node 1).endColumn = 1 ∧
      (m.tokens[1]?).any fun (t : SourceToken) => decide (t.kind ≠ .preprocBegin ∧
        t.kind ≠ .preprocEnd ∧ m.offsets.column t.line t.column = 1))) (by decide +kernel)
  obtain ⟨m, hm, htest⟩ := exists_of_passesMarked htest
  obtain ⟨hc, hends, hopened, hmark, hline, hkind, hend, hany⟩ := of_decide_eq_true htest
  obtain ⟨token, hi, htoken⟩ := Option.any_eq_true _ _ |>.mp hany
  obtain ⟨hbegin, hend', hcolumn⟩ := of_decide_eq_true htoken
  obtain ⟨rfl, -⟩ := MarkedText.ofText_eq hm
  refine ⟨_, s', m, token, hpre, hm, hc, hends, hi, hbegin, hend', hopened, hmark, hline, hkind, ?_⟩
  rw [hcolumn, hend]
  exact fun h => Nat.lt_irrefl 1 h.2

end Verilog
