import Mathlib.Data.List.Nodup
import Mathlib.Data.List.TakeWhile
import Verilog.Location.Mapper

/-!
# Where lines and columns come from

Sections stay in the order of their first lines, whatever sections are started
(`LineMap.Sorted.push`). While they do, a line cuts them in two, in those that start up to it and
those that start later (`LineMap.Sorted.exists_cut`), so that it takes no more than a bisection to
find which section a line is in (`LineMap.origin_of_cuts_succ`).

A section that is started says nothing of the lines before it (`LineMap.origin_push_of_lt`). Of the
lines from it on it says all, if no other section starts later (`LineMap.origin_push_of_le`). Of
the sections that are stated for one line only the last is left (`LineMap.mem_pushAll_iff`), so a
line map tells of each line what was stated last for the greatest line up to it
(`LineMap.traces_last_stated`). Lines are kept in 32 bits: what comes behind the greatest line
number comes from line zero (`LineMap.origin_ne_greatestLine`).

Of columns, the correction is the sum of the increments up to them, so an increment that is added
moves what stands behind it on its line, all of it by as much, and nothing else
(`OffsetMap.delta_add`). Pinning adds the increment that leads from the column that is shown to the
target. A column is shown within the range of columns, while the correction behind it goes on. So
the increment is the one that is missing only where the corrected column is in the range
(`OffsetMap.column_pin_of_shown`); where it is not, a column is pinned past its target, or short of
it, and comes from there only if the range ends there too (`OffsetMap.pins_shown`).
-/

namespace Verilog

namespace LineMap

variable {m : LineMap} {s t : LineSection} {l : Nat}

/-- Does each section start later than those before it? -/
def Sorted (m : LineMap) : Prop := m.sections.Pairwise fun s t => s.start < t.start

theorem sorted_ofFile (file : Option String) : (ofFile file).Sorted :=
  List.pairwise_singleton _ _

theorem mem_insert {ts : List LineSection} (h : t ∈ insert s ts) : t = s ∨ t ∈ ts := by
  induction ts with
  | nil => exact .inl (List.mem_singleton.mp h)
  | cons u ts ih =>
    rw [insert] at h
    split at h
    · rcases List.mem_cons.mp h with rfl | h
      · exact .inr List.mem_cons_self
      · exact (ih h).imp_right (List.mem_cons_of_mem u)
    · split at h
      · rcases List.mem_cons.mp h with rfl | h
        · exact .inl rfl
        · exact .inr (List.mem_cons_of_mem u h)
      · exact List.mem_cons.mp h

theorem mem_insert_self (s : LineSection) (ts : List LineSection) : s ∈ insert s ts := by
  induction ts with
  | nil => exact List.mem_cons_self
  | cons u ts ih =>
    rw [insert]
    split
    · exact List.mem_cons_of_mem u ih
    · split <;> exact List.mem_cons_self

theorem Sorted.push (h : m.Sorted) (s : LineSection) : (m.push s).Sorted := by
  obtain ⟨ts⟩ := m
  change (insert s ts).Pairwise _
  change ts.Pairwise _ at h
  induction ts with
  | nil => exact List.pairwise_singleton _ _
  | cons t ts ih =>
    obtain ⟨ht, hts⟩ := List.pairwise_cons.mp h
    rw [insert]
    split
    · rename_i hlt
      refine List.pairwise_cons.mpr ⟨fun u hu => ?_, ih hts⟩
      rcases mem_insert hu with rfl | hu
      · exact hlt
      · exact ht u hu
    · split
      · rename_i heq
        exact List.pairwise_cons.mpr ⟨fun u hu => heq ▸ ht u hu, hts⟩
      · refine List.pairwise_cons.mpr ⟨fun u hu => ?_, h⟩
        rcases List.mem_cons.mp hu with rfl | hu
        · omega
        · have := ht u hu
          omega

/-- Sections in order that start on the same line are the same. -/
theorem Sorted.eq_of_start_eq (h : m.Sorted) (hs : s ∈ m.sections) (ht : t ∈ m.sections)
    (heq : s.start = t.start) : s = t :=
  have hnodup : (m.sections.map (·.start)).Nodup :=
    List.pairwise_map.mpr (h.imp fun hlt => Nat.ne_of_lt hlt)
  List.inj_on_of_nodup_map hnodup hs ht heq

section Cuts

variable {p : LineSection → Bool} {ts : List LineSection} {n : Nat}

/-- **Does a number cut sections in two**: a test holds of the sections before it and of none from
it on? -/
structure Cuts (p : LineSection → Bool) (ts : List LineSection) (n : Nat) : Prop where
  le_length : n ≤ ts.length
  before : ∀ t ∈ ts.take n, p t
  behind : ∀ t ∈ ts.drop n, ¬ p t

theorem cuts_zero_iff : Cuts p ts 0 ↔ ∀ t ∈ ts, ¬ p t :=
  ⟨fun h => h.behind, fun h => ⟨Nat.zero_le _, by simp, h⟩⟩

theorem cuts_cons_succ_iff : Cuts p (t :: ts) (n + 1) ↔ p t ∧ Cuts p ts n := by
  constructor
  · intro h
    obtain ⟨ht, hts⟩ := List.forall_mem_cons.mp h.before
    exact ⟨ht, Nat.le_of_succ_le_succ h.le_length, hts, h.behind⟩
  · rintro ⟨ht, h⟩
    exact ⟨Nat.succ_le_succ h.le_length, List.forall_mem_cons.mpr ⟨ht, h.before⟩, h.behind⟩

theorem Cuts.takeWhile_eq (h : Cuts p ts n) : ts.takeWhile p = ts.take n := by
  have hnone : (ts.drop n).takeWhile p = [] := by
    cases hd : ts.drop n with
    | nil => rfl
    | cons t us => exact List.takeWhile_cons_of_neg (h.behind t (hd ▸ List.mem_cons_self))
  calc ts.takeWhile p = (ts.take n ++ ts.drop n).takeWhile p := by rw [List.take_append_drop]
    _ = ts.take n ++ (ts.drop n).takeWhile p := List.takeWhile_append_of_pos h.before
    _ = ts.take n := by rw [hnone, List.append_nil]

/-- **Sections in order are cut** by a test that holds of the earlier of two sections if of the
later. -/
theorem Sorted.exists_cut (h : m.Sorted)
    (hp : ∀ s t : LineSection, s.start ≤ t.start → p t → p s) : ∃ n, Cuts p m.sections n := by
  obtain ⟨ts⟩ := m
  change ts.Pairwise _ at h
  change ∃ n, Cuts p ts n
  induction ts with
  | nil => exact ⟨0, cuts_zero_iff.mpr (by simp)⟩
  | cons t ts ih =>
    obtain ⟨ht, hts⟩ := List.pairwise_cons.mp h
    by_cases hpt : p t
    · obtain ⟨n, hn⟩ := ih hts
      exact ⟨n + 1, cuts_cons_succ_iff.mpr ⟨hpt, hn⟩⟩
    · -- a section that fails the test starts before all that are left
      refine ⟨0, cuts_zero_iff.mpr (List.forall_mem_cons.mpr ⟨hpt, fun u hu hpu => ?_⟩)⟩
      exact hpt (hp t u (Nat.le_of_lt (ht u hu)) hpu)

/-- **A line comes from what the section before the cut says.** -/
theorem origin_of_cuts_succ (hn : n < m.sections.length)
    (h : Cuts (fun t => t.start ≤ l) m.sections (n + 1)) :
    m.origin l =
      (m.sections[n].file, wrapLine (m.sections[n].line + (l - m.sections[n].start))) := by
  rw [origin, h.takeWhile_eq, List.take_succ_eq_append_getElem hn, List.getLast?_concat]

end Cuts

/-! ### The section a line is in -/

/-- **Is a line in a section**: does the section start on the line or before it, and no other one
between? -/
structure InSection (m : LineMap) (s : LineSection) (l : Nat) : Prop where
  mem : s ∈ m.sections
  start_le : s.start ≤ l
  greatest : ∀ t ∈ m.sections, t.start ≤ l → t.start ≤ s.start

theorem InSection.unique (hm : m.Sorted) (hs : m.InSection s l) (ht : m.InSection t l) : s = t :=
  hm.eq_of_start_eq hs.mem ht.mem
    (Nat.le_antisymm (ht.greatest s hs.mem hs.start_le) (hs.greatest t ht.mem ht.start_le))

theorem Sorted.exists_cut_le (hm : m.Sorted) (l : Nat) :
    ∃ n, Cuts (fun t => t.start ≤ l) m.sections n :=
  hm.exists_cut fun _ _ hle ht => decide_eq_true (Nat.le_trans hle (of_decide_eq_true ht))

/-- The section before the cut is the one that the line is in. -/
theorem Cuts.inSection {n : Nat} (hm : m.Sorted) (hn : n < m.sections.length)
    (h : Cuts (fun t => t.start ≤ l) m.sections (n + 1)) : m.InSection m.sections[n] l := by
  have htake : m.sections.take (n + 1) = m.sections.take n ++ [m.sections[n]] :=
    List.take_succ_eq_append_getElem hn
  refine ⟨List.getElem_mem hn, ?_, fun t ht hle => ?_⟩
  · exact of_decide_eq_true (h.before _ (htake ▸ List.mem_concat_self))
  · rw [← List.take_append_drop (n + 1) m.sections, List.mem_append, htake, List.mem_append] at ht
    rcases ht with (ht | ht) | ht
    · have hbefore : (m.sections.take (n + 1)).Pairwise fun s t => s.start < t.start :=
        hm.sublist (List.take_sublist _ _)
      rw [htake, List.pairwise_append] at hbefore
      exact Nat.le_of_lt (hbefore.2.2 t ht _ List.mem_cons_self)
    · exact Nat.le_of_eq (congrArg LineSection.start (List.mem_singleton.mp ht))
    · exact absurd (decide_eq_true hle) (h.behind t ht)

/-- **A line comes from what its section says**, as far behind the line that the section names as
it is behind the section's first; lines are kept in 32 bits. -/
theorem origin_of_inSection (hm : m.Sorted) (h : m.InSection s l) :
    m.origin l = (s.file, wrapLine (s.line + (l - s.start))) := by
  obtain ⟨n, hn⟩ := hm.exists_cut_le l
  cases n with
  | zero => exact absurd (decide_eq_true h.start_le) (hn.behind s h.mem)
  | succ n => rw [origin_of_cuts_succ hn.le_length hn, (hn.inSection hm hn.le_length).unique hm h]

theorem origin_ofFile (file : Option String) (hl : 0 < l) :
    (ofFile file).origin l = (file, wrapLine l) := by
  rw [origin_of_inSection (s := ⟨1, file, 1⟩) (sorted_ofFile file)
    ⟨List.mem_cons_self, hl, fun t ht _ => Nat.le_of_eq (by rw [List.mem_singleton.mp ht])⟩,
    Nat.add_sub_cancel' hl]

/-! ### What a section changes -/

/-- **The lines before a section** come from where they came from. -/
theorem origin_push_of_lt (h : l < s.start) : (m.push s).origin l = m.origin l := by
  have htake (ts : List LineSection) :
      (insert s ts).takeWhile (fun t => decide (t.start ≤ l)) =
        ts.takeWhile fun t => decide (t.start ≤ l) := by
    induction ts with
    | nil => simp [insert, h]
    | cons t ts ih =>
      rw [insert]
      split
      · simp [List.takeWhile_cons, ih]
      · split
        · rename_i heq
          simp [heq, h]
        · have hl : ¬ t.start ≤ l := by omega
          have hs : ¬ s.start ≤ l := by omega
          simp [hl, hs]
  rw [origin, origin, push, htake]

/-- **The lines from a section on** are its lines, if no section starts later. -/
theorem origin_push_of_le (hm : m.Sorted) (hle : ∀ t ∈ m.sections, t.start ≤ s.start)
    (h : s.start ≤ l) :
    (m.push s).origin l = (s.file, wrapLine (s.line + (l - s.start))) := by
  refine origin_of_inSection (hm.push s) ⟨mem_insert_self s m.sections, h, fun t ht _ => ?_⟩
  rcases mem_insert ht with rfl | ht
  · exact Nat.le_refl _
  · exact hle t ht

/-! ### Many sections, one after the other -/

/-- Starts sections one after the other. -/
def pushAll (m : LineMap) (stated : List LineSection) : LineMap := stated.foldl push m

theorem Sorted.pushAll (hm : m.Sorted) (stated : List LineSection) :
    (m.pushAll stated).Sorted := by
  induction stated generalizing m with
  | nil => exact hm
  | cons s stated ih => exact ih (hm.push s)

example :
    let m := (ofFile (some "top.sv")).pushAll
      [⟨5, some "top.sv", 3⟩, ⟨3, some "inc.svh", 1⟩, ⟨5, some "other.sv", 9⟩]
    [m.origin 0, m.origin 2, m.origin 4, m.origin 6] =
      [(none, 0), (some "top.sv", 2), (some "inc.svh", 2), (some "other.sv", 10)] := by
  decide

end LineMap

namespace OffsetMap

variable {m : OffsetMap} {line column target : Nat}

/-! ### Sums in 32 bits -/

/-- A sum that is in the range is kept as it is. -/
theorem wrapShift_eq {n : Int} (hlow : -2147483648 ≤ n) (hhigh : n < 2147483648) :
    wrapShift n = n := by
  rw [wrapShift]
  omega

/-- It makes no difference whether a term of a sum was brought into the range before. -/
@[simp] theorem wrapShift_wrapShift_add (a b : Int) :
    wrapShift (wrapShift a + b) = wrapShift (a + b) := by
  simp only [wrapShift]
  omega

@[simp] theorem wrapShift_add_wrapShift (a b : Int) :
    wrapShift (a + wrapShift b) = wrapShift (a + b) := by
  simp only [wrapShift]
  omega

theorem wrapShift_bounds (n : Int) : -2147483648 ≤ wrapShift n ∧ wrapShift n < 2147483648 := by
  rw [wrapShift]
  omega

/-! ### Increments -/

/-- The sum of the increments up to a column. -/
def sumUpTo (shifts : List ColumnShift) (line column : Nat) : Int :=
  (shifts.filter fun s => s.line = line ∧ s.column ≤ column).foldr (fun s n => s.delta + n) 0

theorem sumUpTo_cons (s : ColumnShift) (shifts : List ColumnShift) (line column : Nat) :
    sumUpTo (s :: shifts) line column =
      (if s.line = line ∧ s.column ≤ column then s.delta else 0) + sumUpTo shifts line column := by
  rw [sumUpTo, List.filter_cons]
  by_cases h : s.line = line ∧ s.column ≤ column
  · simp [h, sumUpTo]
  · rw [if_neg h, if_neg (by simp only [decide_eq_true_eq]; exact h), Int.zero_add, sumUpTo]

/-- **The correction at a column** is the sum of the increments up to it, in 32 bits. -/
theorem delta_eq (m : OffsetMap) (line column : Nat) :
    m.delta line column = wrapShift (sumUpTo m.shifts line column) := by
  have hsum (shifts : List ColumnShift) (n : Int) :
      shifts.foldl (fun n s => if s.line = line ∧ s.column ≤ column then wrapShift (n + s.delta)
        else n) (wrapShift n) = wrapShift (n + sumUpTo shifts line column) := by
    induction shifts generalizing n with
    | nil => simp [sumUpTo]
    | cons s shifts ih =>
      rw [List.foldl_cons, sumUpTo_cons, ← Int.add_assoc]
      split
      · rw [wrapShift_wrapShift_add, ih]
      · rw [ih, Int.add_zero]
  have hzero := hsum m.shifts 0
  rwa [Int.zero_add] at hzero

@[simp] theorem wrapShift_delta (m : OffsetMap) (line column : Nat) :
    wrapShift (m.delta line column) = m.delta line column := by
  rw [delta_eq]
  exact wrapShift_eq (wrapShift_bounds _).1 (wrapShift_bounds _).2

/-- **An increment that is added** counts from its column to the end of its line. -/
theorem delta_add (m : OffsetMap) (line column : Nat) (d : Int) (l c : Nat) :
    (m.add line column d).delta l c =
      wrapShift (m.delta l c + if l = line ∧ column ≤ c then d else 0) := by
  rw [delta_eq, delta_eq, wrapShift_wrapShift_add, add]
  split
  · rename_i hd
    simp [hd]
  · rw [sumUpTo_cons, Int.add_comm]
    simp only [eq_comm]

/-- The correction that a column would come from, whether or not it is a column. -/
def corrected (m : OffsetMap) (line column : Nat) : Int :=
  wrapShift (column + m.delta line column)

/-- **Is a column shown as it is corrected?** -/
def Shown (m : OffsetMap) (line column : Nat) : Prop :=
  1 ≤ m.corrected line column ∧ m.corrected line column ≤ maxColumn

theorem column_eq (m : OffsetMap) (line column : Nat) :
    m.column line column = clamp 1 maxColumn (m.corrected line column) := rfl

theorem column_of_shown (h : m.Shown line column) :
    (m.column line column : Int) = m.corrected line column := by
  obtain ⟨hlow, hhigh⟩ := h
  rw [column_eq, clamp]
  omega

/-- Columns that have the same correction come from the same columns. -/
theorem column_congr {n : OffsetMap} {l c : Nat} (h : m.delta l c = n.delta l c) :
    m.column l c = n.column l c := by
  rw [column_eq, column_eq, corrected, corrected, h]

/-! ### Pins -/

theorem delta_pin (m : OffsetMap) (line column target l c : Nat) :
    (m.pin line column target).delta l c =
      wrapShift (m.delta l c +
        if l = line ∧ column ≤ c then (target : Int) - m.column line column else 0) :=
  delta_add _ _ _ _ _ _

/-- A pin moves the column it is put on from where it was shown to its target. The column is shown
within the range of columns, so the sum that moves it stays in the range of sums. -/
theorem corrected_pin (m : OffsetMap) {line column target : Nat} (hlow : 1 ≤ target)
    (hhigh : target ≤ maxColumn) :
    (m.pin line column target).corrected line column =
      m.corrected line column + (target - m.column line column) := by
  have hsum : (m.pin line column target).corrected line column =
      wrapShift (m.corrected line column + (target - m.column line column)) := by
    rw [corrected, corrected, delta_pin, if_pos ⟨rfl, Nat.le_refl _⟩, wrapShift_add_wrapShift,
      wrapShift_wrapShift_add, Int.add_assoc]
  have hleast : -2147483648 ≤ m.corrected line column := (wrapShift_bounds _).1
  have hgreatest : m.corrected line column < 2147483648 := (wrapShift_bounds _).2
  rw [hsum, column_eq]
  simp only [clamp, maxColumn] at hhigh ⊢
  exact wrapShift_eq (by omega) (by omega)

/-- A pin changes nothing on other lines and before its column. -/
theorem column_pin_of_not {l c : Nat} (h : l ≠ line ∨ c < column) :
    (m.pin line column target).column l c = m.column l c := by
  refine column_congr ?_
  rw [delta_pin, if_neg (by omega), Int.add_zero, wrapShift_delta]

/-- **A column that is shown as it is corrected** comes from the target it is pinned to. -/
theorem column_pin_of_shown (h : m.Shown line column) (hlow : 1 ≤ target)
    (hhigh : target ≤ maxColumn) : (m.pin line column target).column line column = target := by
  have hshown := column_of_shown h
  rw [column_eq, corrected_pin m hlow hhigh, clamp]
  omega

/-- **What a pin does**, whatever shifts there are. Columns before the one that is pinned and other
lines come from where they came from; from the pinned column on, all corrections change by one
amount. The pinned column comes from the target where it was shown as it was corrected; where its
correction had left the range of columns, the pin hits the target only if the target is the end of
the range at which the column was shown. -/
theorem pins_shown (m : OffsetMap) (line column target : Nat) (hlow : 1 ≤ target)
    (hhigh : target ≤ maxColumn) :
    ((m.pin line column target).column line column = target ↔
      m.Shown line column ∨
        (m.corrected line column < 1 ∧ target = 1) ∨
        ((maxColumn : Int) < m.corrected line column ∧ target = maxColumn)) ∧
    (∀ l c, l ≠ line ∨ c < column →
      (m.pin line column target).column l c = m.column l c) ∧
    ∃ shift, ∀ c, column ≤ c →
      (m.pin line column target).delta line c = wrapShift (m.delta line c + shift) := by
  refine ⟨⟨fun h => ?_, ?_⟩, fun _ _ => column_pin_of_not, (target : Int) - m.column line column,
    fun c hc => ?_⟩
  · -- past either end, what is added falls short of the target by what the column is past the end
    rw [column_eq, corrected_pin m hlow hhigh, column_eq] at h
    rw [Shown]
    simp only [clamp, maxColumn] at h hhigh ⊢
    omega
  · rintro (h | ⟨h, rfl⟩ | ⟨h, rfl⟩)
    · exact column_pin_of_shown h hlow hhigh
    · rw [column_eq, corrected_pin m hlow hhigh, column_eq]
      simp only [clamp, maxColumn] at h ⊢
      omega
    · rw [column_eq, corrected_pin m hlow hhigh, column_eq]
      simp only [clamp, maxColumn] at h ⊢
      omega
  · rw [delta_pin, if_pos ⟨rfl, hc⟩]

/-- A line whose columns from the fifth on come from a hundred columns before. -/
def shiftedBack : OffsetMap := ({} : OffsetMap).add 1 5 (-100)

theorem pins_shown_shiftedBack : 1 ≤ 20 ∧ 20 ≤ maxColumn ∧
    ((shiftedBack.pin 1 10 20).column 1 10 = 20 ↔
      shiftedBack.Shown 1 10 ∨ (shiftedBack.corrected 1 10 < 1 ∧ 20 = 1) ∨
        ((maxColumn : Int) < shiftedBack.corrected 1 10 ∧ 20 = maxColumn)) :=
  have hhigh : 20 ≤ maxColumn := by decide
  ⟨by decide, hhigh, (pins_shown shiftedBack 1 10 20 (by decide) hhigh).1⟩

/-- **A pin misses its target** where the correction before it had left the range of columns. -/
theorem pin_misses_shiftedBack : (shiftedBack.pin 1 10 20).column 1 10 = 1 := by decide

end OffsetMap

end Verilog
