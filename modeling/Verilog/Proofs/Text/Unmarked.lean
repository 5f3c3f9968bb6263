import Mathlib.Data.List.Basic
import Verilog.Preprocess.Use
import Verilog.Source.Mark
import Verilog.Text.Path

/-!
# Texts without the delimiter of marks

A text that the delimiter of marks stands nowhere in is *unmarked*. Cutting, trimming, joining and
printing numbers do not bring the delimiter in, so all that the preprocessor makes of unmarked texts
is unmarked but for the marks themselves. Files hold bytes: in UTF-8 the delimiter is the byte one,
and no other character has that byte in it.
-/

namespace Verilog

/-- Does the delimiter of marks stand nowhere in a text? -/
def Unmarked (s : List Char) : Prop := markDelimiter ∉ s

instance (s : List Char) : Decidable (Unmarked s) := inferInstanceAs (Decidable (_ ∉ _))

namespace Unmarked

variable {s t : List Char}

theorem of_subset (ht : Unmarked t) (h : s ⊆ t) : Unmarked s := fun hs => ht (h hs)

theorem of_sublist (ht : Unmarked t) (h : s.Sublist t) : Unmarked s := ht.of_subset h.subset

@[simp] theorem nil : Unmarked [] := List.not_mem_nil

@[simp] theorem append : Unmarked (s ++ t) ↔ Unmarked s ∧ Unmarked t := by
  simp [Unmarked]

theorem cons {c : Char} : Unmarked (c :: s) ↔ c ≠ markDelimiter ∧ Unmarked s := by
  simp [Unmarked, eq_comm]

theorem flatMap {α : Type} {xs : List α} {f : α → List Char} :
    Unmarked (xs.flatMap f) ↔ ∀ x ∈ xs, Unmarked (f x) := by
  simp [Unmarked]

/-! ### Strings -/

theorem join {ss : List String} : Unmarked (String.join ss).toList ↔ ∀ s ∈ ss,
    Unmarked s.toList := by
  rw [String.toList_join, flatMap]

theorem intercalate (separator : String) (h : Unmarked separator.toList) :
    (ss : List String) → (∀ s ∈ ss, Unmarked s.toList) →
      Unmarked (separator.intercalate ss).toList
  | [], _ => by simp
  | [s], hs => by simpa using hs
  | s :: t :: ss, hs => by
    have hmore := intercalate separator h (t :: ss) fun u hu => hs u (List.mem_cons_of_mem _ hu)
    rw [String.intercalate_cons_cons, String.toList_append, String.toList_append, append, append]
    exact ⟨⟨hs s List.mem_cons_self, h⟩, hmore⟩

theorem dropWhile (p : Char → Bool) (hs : Unmarked s) : Unmarked (s.dropWhile p) :=
  hs.of_sublist (List.dropWhile_sublist p)

theorem reverse (hs : Unmarked s) : Unmarked s.reverse :=
  hs.of_subset (List.reverse_subset.mpr (List.Subset.refl s))

theorem stripEnds (p : Char → Bool) (hs : Unmarked s) : Unmarked (stripEnds p s) :=
  ((hs.dropWhile p).reverse.dropWhile p).reverse

theorem trim (hs : Unmarked s) : Unmarked (trim s) := hs.stripEnds isBlank

theorem trimText {s : String} (hs : Unmarked s.toList) : Unmarked (trimText s).toList := by
  rw [Verilog.trimText, String.toList_ofList]
  exact hs.trim

theorem flatten (hs : Unmarked s) : Unmarked (DirectiveText.flatten s) := by
  intro h
  obtain ⟨c, hc, heq⟩ := List.mem_map.mp h
  split at heq
  · exact absurd heq (by decide)
  · exact hs (heq ▸ (List.mem_filter.mp hc).1)

theorem replicate_newline (n : Nat) : Unmarked (List.replicate n '\n') := by
  intro h
  exact absurd (List.eq_of_mem_replicate h) (by decide)

@[simp] theorem toDigits (n : Nat) : Unmarked (Nat.toDigits 10 n) := by
  intro h
  exact absurd (Nat.isDigit_of_mem_toDigits (by decide) (by decide) h) (by decide)

@[simp] theorem toString_nat (n : Nat) : Unmarked (toString n).toList := by simp

/-- Is the delimiter nowhere in a text, if there is one? -/
def InSome (text : Option String) : Prop := ∀ s, text = some s → Unmarked s.toList

theorem InSome.none : InSome none := fun _ h => nomatch h

theorem InSome.some {s : String} (h : Unmarked s.toList) : InSome (some s) := fun _ hs => by
  obtain rfl := Option.some.inj hs
  exact h

theorem InSome.nameText {name : Option String} (h : InSome name) :
    Unmarked (nameText name).toList := by
  cases name with
  | none => decide
  | some s => exact h s rfl

/-! ### Paths -/

theorem pathJoin {dir name : List Char} (hd : Unmarked dir) (hn : Unmarked name) :
    Unmarked (Path.join dir name) := by
  have hslash : '/' ≠ markDelimiter := by decide
  rw [Path.join]
  split
  · exact hn
  · split <;> simp [cons, hd, hn, hslash]

theorem strip_subset (first : Char) (s : List Char) : Path.trimEnd.strip first s ⊆ s := by
  fun_induction Path.trimEnd.strip first s with
  | case1 s ih => exact List.subset_cons_of_subset _ ih
  | case2 s ih => exact List.subset_cons_of_subset _ ih
  | case3 => exact List.nil_subset _
  | case4 => exact List.Subset.refl _
  | case5 s => exact List.Subset.refl _

theorem trimEnd {path : List Char} (h : Unmarked path) : Unmarked (Path.trimEnd path) := by
  cases path with
  | nil => exact h
  | cons first rest =>
    obtain ⟨hfirst, hrest⟩ := cons.mp h
    rw [Path.trimEnd]
    exact cons.mpr ⟨hfirst, (hrest.reverse.of_subset (strip_subset first _)).reverse⟩

theorem parent {path dir : List Char} (h : Unmarked path) (hdir : Path.parent? path = some dir) :
    Unmarked dir := by
  rw [Path.parent?] at hdir
  split at hdir
  · simp at hdir
  · obtain rfl := Option.some.inj hdir
    exact (h.trimEnd.of_sublist (List.take_sublist _ _)).trimEnd

end Unmarked

/-! ### Bytes -/

/-- Is no byte of a file that of the delimiter? -/
def UnmarkedBytes (b : ByteArray) : Prop := (1 : UInt8) ∉ b.data

theorem UnmarkedBytes.append {a b : ByteArray} (ha : UnmarkedBytes a) (hb : UnmarkedBytes b) :
    UnmarkedBytes (a ++ b) := by
  simp only [UnmarkedBytes, ByteArray.data_append, Array.mem_append, not_or] at *
  exact ⟨ha, hb⟩

/-- Only the delimiter has its byte: every other byte of a character past it is at least 128. -/
theorem one_mem_utf8EncodeChar {c : Char} :
    (1 : UInt8) ∈ String.utf8EncodeChar c ↔ c = markDelimiter := by
  have hc : c = markDelimiter ↔ c.val.toNat = 1 := by
    rw [Char.ext_iff, ← UInt32.toNat_inj]
    rfl
  rw [hc, String.utf8EncodeChar]
  generalize c.val.toNat = n
  split
  · simp only [List.mem_singleton, ← UInt8.toNat_inj, UInt8.toNat_ofNat', UInt8.toNat_one]
    omega
  · split
    · simp [← UInt8.toNat_inj]
      omega
    · split <;> simp [← UInt8.toNat_inj] <;> omega

/-- **A text is unmarked if its bytes are.** -/
theorem unmarkedBytes_toUTF8 (s : String) : UnmarkedBytes s.toUTF8 ↔ Unmarked s.toList := by
  rw [String.toUTF8_eq_toByteArray, ← String.utf8Encode_toList, List.utf8Encode, UnmarkedBytes,
    Unmarked, List.data_toByteArray]
  simp [one_mem_utf8EncodeChar]

theorem unmarked_of_fromUTF8? {b : ByteArray} {s : String} (hb : UnmarkedBytes b)
    (hs : String.fromUTF8? b = some s) : Unmarked s.toList := by
  rw [String.fromUTF8?] at hs
  split at hs
  · obtain rfl := Option.some.inj hs
    exact (unmarkedBytes_toUTF8 _).mp hb
  · simp at hs

end Verilog
