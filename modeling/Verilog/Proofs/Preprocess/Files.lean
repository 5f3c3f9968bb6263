import Verilog.Proofs.Preprocess.Common
import Verilog.Proofs.Preprocess.Origin
import Verilog.Proofs.Source.Feeds

/-!
# Files side by side

The text of a file leaves marks, and a mark carries the number of a node, which need not be the same
in two programs. So where two files have a passage in common, the programs write texts there that
are the same but for the numbers in their marks (`Twins`). What they write besides marks they write
as the text of a macro does, and is taken from there (`Abreast.inFiles`). This is so where the
delimiter of marks is nowhere else; where it may be, nothing is said of the texts.

With that, inclusions go abreast that ask for the same file (`includersAbreast`): in the file both
sides have the same text, and its lines count as lines of the same file.
-/

namespace Verilog

open Preprocessing Step Stretch

namespace Preprocessing

/-! ### States without the delimiter side by side -/

/-- **Do two states stand side by side**, the second one with the delimiter of marks nowhere, if it
is to be nowhere? -/
structure FilePeers (c : PeerSetting) (st₁ st₂ : PreprocessState) : Prop extends
    Peers c st₁ st₂ where
  unmarked : c.clean → st₂.Unmarked

/-- What is written by files on both sides: the same but for the numbers in marks. -/
def PeerSetting.Texts (c : PeerSetting) (s t : List Char) : Prop := c.clean → Twins s t

variable {c : PeerSetting} {st₁ st₂ after₁ after₂ : PreprocessState}

@[simp] theorem PeerSetting.texts_upToSites {s : Session} {is₁ is₂ : List String} :
    (PeerSetting.upToSites s is₁ is₂).Texts = Twins := by
  funext u v
  simp [PeerSetting.Texts, PeerSetting.upToSites]

theorem joins_texts : Joins c.Texts := ⟨fun _ => .nil, fun h h' hc => (h hc).append (h' hc)⟩

theorem FilePeers.of_eq (h : FilePeers c st₁ st₂) (hs₁ : after₁.session = st₁.session)
    (hs₂ : after₂.session = st₂.session) (hm₁ : after₁.macros = st₁.macros)
    (hm₂ : after₂.macros = st₂.macros) (he₁ : after₁.expanding = st₁.expanding)
    (he₂ : after₂.expanding = st₂.expanding) (hi₁ : after₁.including = st₁.including)
    (hi₂ : after₂.including = st₂.including) : FilePeers c after₁ after₂ :=
  ⟨h.toPeers.of_eq hs₁ hs₂ hm₁ hm₂ he₁ he₂ hi₁ hi₂,
    fun hc => ⟨hs₂ ▸ (h.unmarked hc).session, hm₂ ▸ (h.unmarked hc).macros⟩⟩

/-- **What is written besides marks** is written in files too. -/
theorem Abreast.inFiles {α β : Type} {x : Preprocessing α} {y : Preprocessing β} {P : β → Prop}
    {Q : α → β → Prop} (h : Abreast c.Fails (Peers c) Eq Q x y) (hy : c.clean → Writes false y P) :
    Abreast c.Fails (FilePeers c) c.Texts (fun a b => Q a b ∧ (c.clean → P b)) x y := by
  intro st₁ st₂ hst
  refine (h st₁ st₂ hst.toPeers).mono fun a after₁ b after₂ _ hrun hend => ?_
  obtain ⟨hQ, hpeers, u, v, hu, hv, rfl⟩ := hend
  have hwrote (hc : c.clean) : (after₂.Unmarked ∧ Unmarked u) ∧ P b := by
    have hwrote := hy hc st₂ (hst.unmarked hc)
    rw [hrun] at hwrote
    obtain ⟨⟨hunmarked, -, ⟨ws, hws, hsound, -⟩, -, -⟩, hP⟩ := hwrote
    obtain rfl : u = writtenAll ws := List.append_cancel_left (hv.symm.trans hws)
    exact ⟨⟨hunmarked, hsound.unmarked⟩, hP⟩
  exact ⟨⟨hQ, fun hc => (hwrote hc).2⟩, ⟨hpeers, fun hc => (hwrote hc).1.1⟩, _, _, hu, hv,
    fun hc => .of_unmarked (hwrote hc).1.2⟩

theorem Abreast.gives {α β : Type} {E : Failing} {R : PreprocessState → PreprocessState → Prop}
    {T : List Char → List Char → Prop} {x : Preprocessing α} {y : Preprocessing β} {P : β → Prop}
    {Q : α → β → Prop} (h : Abreast E R T Q x y) (hy : DirectiveText.Gives P y) :
    Abreast E R T (fun a b => Q a b ∧ P b) x y := fun st₁ st₂ hst =>
  (h st₁ st₂ hst).mono fun _ _ b after₂ _ hrun hend =>
    ⟨⟨hend.1, hy st₂ b after₂ hrun⟩, hend.2⟩

/-- **Do two ways to include go abreast?** They are asked for files by the same names from the same
file. -/
def IncludersAbreast (c : PeerSetting) (includer₁ includer₂ : Includer) : Prop :=
  ∀ r₁ r₂ : IncludeRequest, r₁.source = r₂.source → r₁.name = r₂.name →
    (c.clean → r₂.Unmarked) →
    Abreast c.Fails (FilePeers c) c.Texts Eq (includer₁ r₁) (includer₂ r₂)

end Preprocessing

namespace DirectiveText

variable {c : PeerSetting} {d₁ d₂ : DirectiveText} {t₁ t₂ : ParseTree}

/-! ### Marks and inclusions -/

/-- Both sides open and close the marks of the same passage. -/
theorem marksAbreast_file (h : SamePassage d₁ d₂ t₁ t₂) (hr₁ : d₁.recording = true)
    (hr₂ : d₂.recording = true) : MarksAbreast c.Fails (FilePeers c) c.Texts d₁ d₂ t₁ t₂ where
  opens marked := by
    intro st₁ st₂ hst
    rw [d₁.openMarks_eq hr₁, d₂.openMarks_eq hr₂]
    refine ⟨trivial, hst.of_eq rfl rfl rfl rfl rfl rfl rfl rfl, if marked then beginMark else [],
      if marked then beginMark else [], by simp, by simp, fun _ => ?_⟩
    cases marked with
    | false => exact .nil
    | true => exact .of_mark (.inl rfl) (.inl rfl)
  closes marked node₁ node₂ := by
    intro st₁ st₂ hst
    rw [d₁.closeMarks_eq hr₁, d₂.closeMarks_eq hr₂, h.newlinesIn]
    refine ⟨trivial, hst.of_eq rfl rfl rfl rfl rfl rfl rfl rfl, _, _, String.toList_append,
      String.toList_append, fun _ => ?_⟩
    rw [String.toList_ofList, String.toList_ofList]
    refine (Twins.of_unmarked (Unmarked.replicate_newline _)).append ?_
    cases marked with
    | false => exact .nil
    | true => exact .of_mark (.inr ⟨node₁, rfl⟩) (.inr ⟨node₂, rfl⟩)

section

variable {spared : Sparing} {expand₁ expand₂ : Expander} {includer₁ includer₂ : Includer}

/-- What was written in an inclusion is closed with a line on both sides, or on neither. -/
theorem added_resumed {st₁ st₂ back₁ back₂ : PreprocessState} {u v : List Char}
    {scope₁ scope₂ : ScanScope} {edge₁ edge₂ : Nat} {resolved₁ resolved₂ : Option String}
    (hu : back₁.text.toList = st₁.text.toList ++ u) (hv : back₂.text.toList = st₂.text.toList ++ v)
    (huv : c.Texts u v) (hne : u ≠ []) :
    Added c.Texts st₁ st₂ (d₁.resumed scope₁ t₁ edge₁ resolved₁ back₁)
      (d₂.resumed scope₂ t₂ edge₂ resolved₂ back₂) := by
  refine ⟨u ++ (missingFeed back₁.text).toList, v ++ (missingFeed back₂.text).toList, by
    simp [resumed, hu], by simp [resumed, hv], fun hc => ?_⟩
  have hfeed : missingFeed back₁.text = missingFeed back₂.text := by
    have hends : back₁.text.toList.getLast? = some '\n' ↔
        back₂.text.toList.getLast? = some '\n' := by
      have hne₂ : v ≠ [] := fun h => hne (h ▸ huv hc).eq_nil
      rw [hu, hv, List.getLast?_append_of_ne_nil _ hne, List.getLast?_append_of_ne_nil _ hne₂]
      exact ⟨(huv hc).symm.getLast?_eq_newline, (huv hc).getLast?_eq_newline⟩
    simp only [missingFeed, endsWith_newline, hends]
  rw [hfeed]
  refine (huv hc).append (.of_unmarked ?_)
  rw [missingFeed]
  split <;> decide

/-- **An inclusion** by the same passage of two texts of one file. -/
theorem abreast_includeFile (h : SamePassage d₁ d₂ t₁ t₂) (hr₁ : d₁.recording = true)
    (hr₂ : d₂.recording = true) (hd : c.clean → d₂.Unmarked) (hfile : d₁.file = d₂.file)
    (he : ExpandersAbreast c spared expand₁ expand₂) (hexpands : Expands expand₂)
    (hi : IncludersAbreast c includer₁ includer₂) (scope₁ scope₂ : ScanScope)
    (node₁ node₂ : NodeId) :
    Abreast c.Fails (FilePeers c) c.Texts (fun _ _ => True)
      (d₁.includeFile expand₁ includer₁ scope₁ node₁ t₁)
      (d₂.includeFile expand₂ includer₂ scope₂ node₂ t₂) := by
  intro st₁ st₂ hst
  rw [includeFile_eq hr₁, includeFile_eq hr₂]
  have hname := (abreast_includedName h (.inl hfile) he).inFiles
    (fun hc => writes_includedName (t := t₂) (hd hc) hexpands) st₁ st₂ hst
  generalize d₁.includedName expand₁ t₁ st₁ = x₁, d₂.includedName expand₂ t₂ st₂ = x₂ at hname ⊢
  rcases x₁ with ⟨name, mid₁⟩ | ⟨e₁, mid₁⟩ <;> rcases x₂ with ⟨name₂, mid₂⟩ | ⟨e₂, mid₂⟩
  · obtain ⟨⟨rfl, hunmarked⟩, hmid, hadded⟩ := hname
    rcases name with _ | name
    · exact ⟨trivial, hmid, hadded⟩
    · have hinc := hi (d₁.requestFor t₁ node₁ name) (d₂.requestFor t₂ node₂ name) hfile rfl
        (fun hc => ⟨(hd hc).file, hunmarked hc name rfl⟩)
        (d₁.asking t₁ node₁ name mid₁) (d₂.asking t₂ node₂ name mid₂)
        (hmid.of_eq rfl rfl rfl rfl rfl rfl rfl rfl)
      dsimp only
      generalize includer₁ _ _ = x₁, includer₂ _ _ = x₂ at hinc ⊢
      rcases x₁ with ⟨resolved, back₁⟩ | ⟨e₁, back₁⟩ <;>
        rcases x₂ with ⟨resolved₂, back₂⟩ | ⟨e₂, back₂⟩
      · obtain ⟨rfl, hback, u, v, hu, hv, huv⟩ := hinc
        refine ⟨trivial, hback.of_eq rfl rfl rfl rfl rfl rfl rfl rfl, hadded.trans joins_texts ?_⟩
        exact added_resumed (u := '\n' :: u) (v := '\n' :: v) (by simp [hu, asking])
          (by simp [hv, asking]) (fun hc => .char (by decide) (huv hc)) (List.cons_ne_nil _ _)
      · exact hinc
      · obtain rfl := hinc
        exact .of_lapse _
      · exact hinc
  · exact hname.elim
  · obtain rfl := hname
    exact .of_lapse _
  · exact hname

end

/-! ### Pieces of files -/

/-- The number of chains that are open behind a piece. -/
def chainsBehindPiece (n : Nat) (t : ParseTree) : Nat := t.kind?.elim n (chainsBehind n)

/-- Do pieces go on with a chain or close one only where one is open, so many of them at first, and
leave none open? -/
def closesAll : Nat → List ParseTree → Bool
  | n, [] => n == 0
  | n, t :: ts =>
    (n != 0 || (t.kind?.bind strayFault?).isNone) && closesAll (chainsBehindPiece n t) ts

theorem closesAll_rename (n : Nat) (ts : List ParseTree) (ρ : Nat → Nat) :
    closesAll n (ts.map (·.rename ρ)) = closesAll n ts := by
  induction ts generalizing n with
  | nil => rfl
  | cons t ts ih =>
    simp only [List.map_cons, closesAll, chainsBehindPiece, ParseTree.kind?_rename, ih]

theorem chainsBehindPiece_of_not_directive (n : Nat) {t : ParseTree}
    (h : t.kind?.any (·.isDirective) = false) : chainsBehindPiece n t = n := by
  rw [chainsBehindPiece]
  cases hk : t.kind? with
  | none => rfl
  | some kind =>
    rw [hk] at h
    change chainsBehind n kind = n
    cases kind <;> first | rfl | exact absurd h (by decide)

/-- **Two texts of files**, of which the first is scanned with something to be spared: what tells
its file, if the files are not the same. -/
structure FilesAbreast (c : PeerSetting) (spared : Sparing) (d₁ d₂ : DirectiveText) : Prop where
  recording₁ : d₁.recording = true
  recording₂ : d₂.recording = true
  unmarked : c.clean → d₂.Unmarked
  file : d₁.file = d₂.file ∨ spared d₁.file .ppSvFileDirective = true

/-- **Can two pieces not be told apart** in the two texts? Lines that are to be told alike are the
same lines. -/
structure SamePiece (telling : Telling) (d₁ d₂ : DirectiveText) (t₁ t₂ : ParseTree) : Prop where
  passage : SamePassage d₁ d₂ t₁ t₂
  range : telling.line = true → d₁.rangeOf t₁ = d₂.rangeOf t₂

/-- **May a piece stand in both texts?** One that includes a file may if they are of the same file,
and one that tells its file or line if their lines count as lines of the same file or as the same
lines. A line that is told may also be something to be spared. -/
structure MayShare (c : PeerSetting) (spared : Sparing) (telling : Telling) (d₁ d₂ : DirectiveText)
    (includer₁ includer₂ : Includer) (t : ParseTree) : Prop where
  includes : t.kind? = some .ppIncludeDirective →
    d₁.file = d₂.file ∧ IncludersAbreast c includer₁ includer₂
  tells : t.kind? = some .ppSvFileDirective → telling.file = true
  line : t.kind? = some .ppSvLineDirective →
    spared d₁.file .ppSvLineDirective = true ∨ telling.line = true

/-- What two scans of files keep. -/
structure KeptAlike (c : PeerSetting) (outer : Conditionals) (telling : Telling)
    (d₁ d₂ : DirectiveText) (scope₁ scope₂ : ScanScope) : Prop extends
    ScopesAlike outer telling d₁ d₂ scope₁ scope₂ where
  unmarked : c.clean → scope₂.Unmarked

theorem KeptAlike.start (c : PeerSetting) (telling : Telling)
    (hfile : telling.file = true → d₁.file = d₂.file) : KeptAlike c [] telling d₁ d₂ {} {} :=
  ⟨⟨⟨rfl, rfl⟩, hfile, fun _ => rfl⟩, fun _ => ScanScope.unmarked_empty⟩

section

variable {spared : Sparing} {expand₁ expand₂ : Expander} {includer₁ includer₂ : Includer}
  {outer : Conditionals} {telling : Telling} {scope₁ scope₂ : ScanScope}

/-- **A piece of two files.** -/
theorem abreast_pieceSparing (hf : FilesAbreast c spared d₁ d₂)
    (he : ExpandersAbreast c spared expand₁ expand₂) (hexpands : Expands expand₂)
    (h : SamePiece telling d₁ d₂ t₁ t₂)
    (hmay : MayShare c spared telling d₁ d₂ includer₁ includer₂ t₁)
    (hs : KeptAlike c outer telling d₁ d₂ scope₁ scope₂)
    (hopen : (t₁.kind?.bind strayFault?).isSome → scope₁.conditions ≠ [] ∨ outer = []) :
    Abreast c.Fails (FilePeers c) c.Texts (fun next₁ next₂ =>
        (KeptAlike c outer telling d₁ d₂ next₁ next₂ ∧
          next₁.conditions.length = chainsBehindPiece scope₁.conditions.length t₁) ∧
        (t₁.kind? ≠ some .ppLineDirective → next₂.origin = scope₂.origin))
      (d₁.pieceSparing spared expand₁ includer₁ scope₁ t₁)
      (d₂.scanPiece expand₂ includer₂ scope₂ t₂) := by
  rw [pieceSparing]
  split
  · exact .lapses
  · rename_i hspared
    have hactive := hs.conditions.active_eq
    have horigin : Gives (fun next => t₁.kind? ≠ some .ppLineDirective →
        next.origin = scope₂.origin) (d₂.scanPiece expand₂ includer₂ scope₂ t₂) :=
      fun st next after hrun hline =>
        keepsOrigin_scanPiece (fun _ hk => hline (h.passage.kind.trans hk)) st next after hrun
    refine Abreast.gives ?_ horigin
    refine abreast_scanPiece joins_texts h.passage
      (marksAbreast_file h.passage hf.recording₁ hf.recording₂) hactive (fun hkind => ⟨hs, ?_⟩)
      (fun i j hij => ?_) (fun kind hkind node₁ node₂ => ?_) fun node₁ node₂ => ?_
    · exact (chainsBehindPiece_of_not_directive _ hkind).symm
    · exact ((abreast_copyToken hij hactive).inFiles
        fun hc => writes_copyToken (hf.unmarked hc) j).mono fun _ _ _ => trivial
    · rw [chainsBehindPiece, hkind, Option.elim_some]
      rw [hkind] at hopen
      by_cases hinc : scope₁.conditions.active = true ∧ kind = .ppIncludeDirective
      · obtain ⟨hact, rfl⟩ := hinc
        obtain ⟨hfile, hi⟩ := hmay.includes hkind
        rw [doDirective_include hact, doDirective_include (hactive ▸ hact)]
        exact (abreast_includeFile h.passage hf.recording₁ hf.recording₂ hf.unmarked hfile he
          hexpands hi _ _ _ _).bind joins_texts fun _ _ _ => .pure joins_texts ⟨hs, rfl⟩
      · rw [d₂.doDirective_congr (fun _ => pure none) fun hact hk => hinc ⟨hactive ▸ hact, hk⟩]
        have hline (hact : scope₁.conditions.active = true) (hk : kind = .ppSvLineDirective) :
            telling.line = true :=
          (hmay.line (hk ▸ hkind)).resolve_left fun hsp =>
            hspared (by rw [hact, hkind, hk]; exact hsp)
        have hdo : Abreast c.Fails (Peers c) Eq _
            (d₁.doDirective expand₁ includer₁ scope₁ kind t₁ node₁)
            (d₂.doDirective expand₂ (fun _ => pure none) scope₂ kind t₂ node₂) :=
          abreast_doDirective h.passage (hf.recording₁.trans hf.recording₂.symm) h.range
            hs.toScopesAlike hopen
            (fun hact =>
              ⟨fun hk => absurd ⟨hact, hk⟩ hinc, hline hact, fun hk => hmay.tells (hk ▸ hkind)⟩)
            node₁ node₂
        refine (hdo.inFiles fun hc => writes_doDirective (hf.unmarked hc) hexpands
          (fun _ _ => .pure trivial) (hs.unmarked hc) kind node₂).mono
            fun _ _ hnext => ⟨⟨hnext.1.1, hnext.2⟩, hnext.1.2⟩
    · exact ((abreast_doUse h.passage hf.file he _ node₁ node₂).inFiles
        fun hc => writes_doUse (hf.unmarked hc) hexpands _ node₂).mono fun _ _ _ => trivial

/-- **Pieces of two files one after the other.** Where outer chains are open on the second side, the
pieces must close no others than those they open. -/
theorem abreast_pieces (hf : FilesAbreast c spared d₁ d₂)
    (he : ExpandersAbreast c spared expand₁ expand₂) (hexpands : Expands expand₂)
    {ts₁ ts₂ : List ParseTree} (h : List.Forall₂ (SamePiece telling d₁ d₂) ts₁ ts₂)
    (hmay : ∀ t ∈ ts₁, MayShare c spared telling d₁ d₂ includer₁ includer₂ t)
    (hs : KeptAlike c outer telling d₁ d₂ scope₁ scope₂)
    (hcloses : outer = [] ∨ closesAll scope₁.conditions.length ts₁ = true) :
    Abreast c.Fails (FilePeers c) c.Texts (fun next₁ next₂ =>
        KeptAlike c outer telling d₁ d₂ next₁ next₂ ∧
        (closesAll scope₁.conditions.length ts₁ = true → next₁.conditions = []) ∧
        ((∀ t ∈ ts₁, t.kind? ≠ some .ppLineDirective) → next₂.origin = scope₂.origin))
      (ts₁.foldlM (d₁.pieceSparing spared expand₁ includer₁) scope₁)
      (ts₂.foldlM (d₂.scanPiece expand₂ includer₂) scope₂) := by
  let V (ts : List ParseTree) (next₁ next₂ : ScanScope) : Prop :=
    ts ⊆ ts₁ ∧ KeptAlike c outer telling d₁ d₂ next₁ next₂ ∧
      (closesAll scope₁.conditions.length ts₁ = true →
        closesAll next₁.conditions.length ts = true) ∧
      ((∀ t ∈ ts₁, t.kind? ≠ some .ppLineDirective) → next₂.origin = scope₂.origin)
  have hstart : V ts₁ scope₁ scope₂ := ⟨fun _ => id, hs, id, fun _ => rfl⟩
  refine (Abreast.foldlM joins_texts (V := V) ?_ h hstart).mono fun next₁ next₂ hend => ?_
  · intro t u ts next₁ next₂ htu ⟨hsub, hnext, hclosing, horigin⟩
    have hmem : t ∈ ts₁ := hsub List.mem_cons_self
    have hopen : (t.kind?.bind strayFault?).isSome → next₁.conditions ≠ [] ∨ outer = [] := by
      intro hstray
      refine hcloses.symm.imp_left fun hall hnil => ?_
      have hturn := hclosing hall
      rw [closesAll, hnil, Bool.and_eq_true] at hturn
      simp [Option.isSome_iff_ne_none.mp hstray] at hturn
    refine (abreast_pieceSparing hf he hexpands htu (hmay t hmem) hnext hopen).mono
      fun _ _ ⟨⟨hkept, hlength⟩, hkeeps⟩ =>
        ⟨fun _ hu => hsub (List.mem_cons_of_mem t hu), hkept, fun hall => ?_, fun hline => ?_⟩
    · have hturn := hclosing hall
      rw [closesAll, Bool.and_eq_true] at hturn
      rw [hlength]
      exact hturn.2
    · rw [hkeeps (hline t hmem), horigin hline]
  · obtain ⟨-, hkept, hclosing, horigin⟩ := hend
    exact ⟨hkept, fun hall => by simpa [closesAll] using hclosing hall, horigin⟩

/-- The chains that are left open are reported on both sides. -/
theorem abreast_openChains (hf : FilesAbreast c spared d₁ d₂)
    {cs₁ cs₂ : Conditionals} (h : cs₁.length = cs₂.length) :
    Abreast c.Fails (FilePeers c) c.Texts (fun _ _ => True) (d₁.reportOpenChains cs₁)
      (d₂.reportOpenChains cs₂) :=
  ((abreast_reportOpenChains (hf.recording₁.trans hf.recording₂.symm) h).inFiles
    fun hc => writes_reportOpenChains (hf.unmarked hc) cs₂).mono fun _ _ _ => trivial

/-- **A whole file** on both sides. -/
theorem abreast_scanFile (hf : FilesAbreast c spared d₁ d₂)
    (he : ExpandersAbreast c spared expand₁ expand₂) (hexpands : Expands expand₂)
    (htokens : d₁.tokens = d₂.tokens) (hfile : d₁.file = d₂.file)
    (hi : IncludersAbreast c includer₁ includer₂) :
    Abreast c.Fails (FilePeers c) c.Texts (fun _ _ => True)
      (d₁.scanSparing spared expand₁ includer₁) (d₂.scan expand₂ includer₂) := by
  have hpieces : List.Forall₂ (SamePiece ⟨true, true⟩ d₁ d₂) d₁.pieces d₂.pieces := by
    rw [pieces, pieces, htokens]
    exact List.forall₂_same.mpr fun t _ => ⟨.of_tokens htokens t, fun _ => by
      rw [rangeOf, rangeOf, htokens]⟩
  exact (abreast_pieces hf he hexpands hpieces
    (fun _ _ => ⟨fun _ => ⟨hfile, hi⟩, fun _ => rfl, fun _ => .inr rfl⟩)
    (.start c _ fun _ => hfile) (.inl rfl)).bind joins_texts
      fun scope₁ scope₂ hend => abreast_openChains hf hend.1.conditions.length_eq

end

/-! ### Parts that two texts have in common -/

/-- The scan of a text piece by piece, unless something is to be spared. -/
theorem scanFileSparing_eq_pieces (spared : Sparing) (path text : String) (s : Session) :
    scanFileSparing spared path text s = (piecesOf text).foldlM
      ((ofText text (some path) 1 true).pieceSparing spared (expandSparing spared maxExpansionDepth)
        (includeSparing spared s.config.includeDirs (s.files.entries.length + 1))) {}
      >>= fun scope => (ofText text (some path) 1 true).reportOpenChains scope.conditions := by
  rw [scanFileSparing, scanSparing, pieces_ofText]

/-- The scan of a text piece by piece. -/
theorem scanFile_eq_pieces (path text : String) (s : Session) :
    scanFile path text s = (piecesOf text).foldlM
      ((ofText text (some path) 1 true).scanPiece expandText
        (includeWithin s.config.includeDirs (s.files.entries.length + 1))) {}
      >>= fun scope => (ofText text (some path) 1 true).reportOpenChains scope.conditions := by
  rw [← pieces_ofText text (some path) 1 true]
  rfl

theorem map_rename_zero (ts : List ParseTree) : ts.map (·.rename (0 + ·)) = ts := by
  rw [List.map_congr_left fun t _ => ParseTree.rename_of_fixed Nat.zero_add t, List.map_id']

section

variable {spared : Sparing} {telling : Telling} {outer : Conditionals}
  {includer₁ includer₂ : Includer} {scope₁ scope₂ : ScanScope} {text₁ text₂ part : String}
  {n₁ n₂ : Nat} {file₁ file₂ : Option String} {parent₁ parent₂ : NodeId}

/-- **A part of two texts**, on whatever lines it stands in them. -/
theorem abreast_part (h₁ : Holds text₁ n₁ part) (h₂ : Holds text₂ n₂ part)
    (hf : FilesAbreast c spared (.ofText text₁ file₁ parent₁ true)
      (.ofText text₂ file₂ parent₂ true))
    (htelling : telling.line = false)
    (hmay : ∀ t ∈ piecesOf part, MayShare c spared telling (.ofText text₁ file₁ parent₁ true)
      (.ofText text₂ file₂ parent₂ true) includer₁ includer₂ t)
    (hs : KeptAlike c outer telling (.ofText text₁ file₁ parent₁ true)
      (.ofText text₂ file₂ parent₂ true) scope₁ scope₂)
    (hcloses : outer = [] ∨ closesAll scope₁.conditions.length (piecesOf part) = true) :
    Abreast c.Fails (FilePeers c) c.Texts (fun next₁ next₂ =>
        KeptAlike c outer telling (.ofText text₁ file₁ parent₁ true)
          (.ofText text₂ file₂ parent₂ true) next₁ next₂ ∧
        (closesAll scope₁.conditions.length (piecesOf part) = true → next₁.conditions = []) ∧
        ((∀ t ∈ piecesOf part, t.kind? ≠ some .ppLineDirective) → next₂.origin = scope₂.origin))
      (((piecesOf part).map (·.rename (n₁ + ·))).foldlM
        ((ofText text₁ file₁ parent₁ true).pieceSparing spared
          (expandSparing spared maxExpansionDepth) includer₁) scope₁)
      (((piecesOf part).map (·.rename (n₂ + ·))).foldlM
        ((ofText text₂ file₂ parent₂ true).scanPiece expandText includer₂) scope₂) := by
  have hpieces : List.Forall₂ (SamePiece telling (.ofText text₁ file₁ parent₁ true)
      (.ofText text₂ file₂ parent₂ true)) ((piecesOf part).map (·.rename (n₁ + ·)))
      ((piecesOf part).map (·.rename (n₂ + ·))) :=
    (samePassages_part h₁ h₂ file₁ file₂ parent₁ parent₂ true true).imp fun _ _ h =>
      ⟨h, fun hline => absurd (htelling.symm.trans hline) Bool.false_ne_true⟩
  have hmay' : ∀ t ∈ (piecesOf part).map (·.rename (n₁ + ·)), MayShare c spared telling
      (.ofText text₁ file₁ parent₁ true) (.ofText text₂ file₂ parent₂ true) includer₁ includer₂ t :=
    List.forall_mem_map.mpr fun t ht =>
      ⟨fun hk => (hmay t ht).includes (t.kind?_rename ▸ hk),
        fun hk => (hmay t ht).tells (t.kind?_rename ▸ hk),
        fun hk => (hmay t ht).line (t.kind?_rename ▸ hk)⟩
  have hscan := abreast_pieces hf (expandersAbreast maxExpansionDepth)
    (expands_expandWithin maxExpansionDepth) hpieces hmay' hs (by rwa [closesAll_rename])
  simp only [closesAll_rename, List.forall_mem_map, ParseTree.kind?_rename] at hscan
  exact hscan

end

end DirectiveText

/-! ### Files that are included -/

section

variable {c : PeerSetting} {spared : Sparing} {includeDirs : List String} {r₁ r₂ : IncludeRequest}
  {st₁ st₂ : PreprocessState}

/-- The state in which the scan of an included file begins. -/
def PreprocessState.entering (path : String) (st : PreprocessState) : PreprocessState :=
  { st with lines := st.lines.push ⟨st.line, some path, 1⟩, including := path :: st.including }

/-- **A request comes to the same** on both sides, unless it is for the file that messages are
logged to. -/
theorem outcome_of_peers (hsettled : c.session.Settled) (hsame : c.including₁ = c.including₂)
    (hst : Peers c st₁ st₂) (hsource : r₁.source = r₂.source) (hname : r₁.name = r₂.name)
    (hlog : (resolveInclude st₁.session.files includeDirs r₁.source r₁.name).any
      st₁.session.logsTo = false) :
    (∃ fault, r₁.outcome includeDirs st₁ = .error fault ∧
      r₂.outcome includeDirs st₂ = .error fault) ∨
    ∃ path text,
      r₁.outcome includeDirs st₁ =
        .ok (.ofText text (some path) r₁.node true, st₁.entering path) ∧
      r₂.outcome includeDirs st₂ =
        .ok (.ofText text (some path) r₂.node true, st₂.entering path) := by
  obtain ⟨ds₁, hs₁⟩ := hst.session₁
  obtain ⟨ds₂, hs₂⟩ := hst.session₂
  obtain ⟨-, hhandle, hgrows₁⟩ := hsettled.addAll ds₁
  have hgrows₂ : FileStore.Grows c.session.log.handle c.session.files st₂.session.files := by
    obtain ⟨-, -, hgrows⟩ := hsettled.addAll ds₂
    rwa [hs₂, Session.addAll_seeding]
  rw [← hs₁] at hhandle hgrows₁
  have hresolve : resolveInclude st₁.session.files includeDirs r₁.source r₁.name =
      resolveInclude st₂.session.files includeDirs r₂.source r₂.name := by
    rw [resolveInclude, resolveInclude, funext hgrows₁.isFile, funext hgrows₂.isFile, hsource,
      hname]
  have hcycle (path : String) : st₁.including.any (sameFile st₁.session.files · path) =
      st₂.including.any (sameFile st₂.session.files · path) := by
    rw [hst.including₁, hst.including₂, hsame]
    congr 1
    funext other
    rw [hgrows₁.sameFile, hgrows₂.sameFile]
  rw [IncludeRequest.outcome, IncludeRequest.outcome, ← hresolve, ← hname]
  cases hfound : resolveInclude st₁.session.files includeDirs r₁.source r₁.name with
  | none => exact .inl ⟨_, rfl, rfl⟩
  | some path =>
    rw [hfound, Option.any_some] at hlog
    have htext : st₁.session.files.text? path = st₂.session.files.text? path := by
      have hnot : ∀ place, c.session.log.handle = some place →
          c.session.files.locate path ≠ some place := by
        rintro place hplace hpath
        simp [Session.logsTo, hhandle, hplace, hgrows₁.locate, hpath] at hlog
      rw [hgrows₁.text hnot, hgrows₂.text hnot]
    dsimp only
    rw [← hcycle, ← htext]
    split
    · exact .inl ⟨_, rfl, rfl⟩
    · cases st₁.session.files.text? path with
      | none => exact .inl ⟨_, rfl, rfl⟩
      | some text => exact .inr ⟨path, text, rfl, rfl⟩

end

/-- **Inclusions go abreast**, however deep they nest, if the same inclusions are open. -/
theorem includersAbreast {c : PeerSetting} {spared : Sparing} {includeDirs : List String}
    (hdirs : c.clean → ∀ dir ∈ includeDirs, Unmarked dir.toList)
    (hsettled : c.session.Settled) (hsame : c.including₁ = c.including₂) (depth : Nat) :
    IncludersAbreast c (includeSparing spared includeDirs depth)
      (includeWithin includeDirs depth) := by
  induction depth generalizing c with
  | zero => exact fun _ _ _ _ _ => .pure joins_texts rfl
  | succ depth ih =>
    intro r₁ r₂ hsource hname hr st₁ st₂ hst
    change EndAbreast _ _ ((if (resolveInclude st₁.session.files includeDirs r₁.source r₁.name).any
      st₁.session.logsTo then throw lapse else includeBy includeDirs _ r₁) st₁) _
    split
    · exact .of_lapse _
    · rename_i hlog
      rw [includeBy_eq includeDirs (·.scanSparing spared (expandSparing spared maxExpansionDepth)
        (includeSparing spared includeDirs depth)), includeWithin_eq]
      have hclean (hc : c.clean) :=
        IncludeRequest.unmarked_outcome (hdirs hc) (hr hc) (hst.unmarked hc)
      rcases outcome_of_peers hsettled hsame hst.toPeers hsource hname (eq_false_of_ne_true hlog)
        with ⟨fault, h₁, h₂⟩ | ⟨path, text, h₁, h₂⟩
      · rw [h₂] at hclean
        rw [h₁, h₂]
        have hrefuse : Abreast c.Fails (Peers c) Eq Eq (r₁.refuse fault) (r₂.refuse fault) :=
          (Preprocessing.abreast_report _ _ _).bind joins_eq fun _ _ _ => .pure joins_eq rfl
        have hwrites (hc : c.clean) : Writes false (r₂.refuse fault) fun _ => True :=
          (writes_report (DirectiveFault.unmarked_diagnostic (hclean hc) (hr hc).source)).bind
            fun _ _ => .pure trivial
        exact ((hrefuse.inFiles hwrites).mono fun _ _ h => h.1) st₁ st₂ hst
      · rw [h₂] at hclean
        rw [h₁, h₂]
        let c' : PeerSetting := { c with
          including₁ := path :: c.including₁, including₂ := path :: c.including₂ }
        have hinner : FilePeers c' (st₁.entering path) (st₂.entering path) :=
          ⟨⟨hst.session₁, hst.session₂, hst.reports, hst.macros, hst.expanding,
            congrArg (path :: ·) hst.including₁, congrArg (path :: ·) hst.including₂⟩,
            fun hc => ⟨(hst.unmarked hc).session, (hst.unmarked hc).macros⟩⟩
        have hf : DirectiveText.FilesAbreast c' spared (.ofText text (some path) r₁.node true)
            (.ofText text (some path) r₂.node true) :=
          { recording₁ := rfl, recording₂ := rfl, unmarked := fun hc => (hclean hc).1,
            file := .inl rfl }
        have hscan := DirectiveText.abreast_scanFile hf (expandersAbreast maxExpansionDepth)
          (expands_expandWithin maxExpansionDepth) rfl rfl
          (ih (c := c') hdirs hsettled (congrArg (path :: ·) hsame)) _ _ hinner
        dsimp only
        generalize DirectiveText.scanSparing _ _ _ _ _ = x₁ at hscan ⊢
        rw [expandText]
        generalize DirectiveText.scan _ _ _ _ = x₂ at hscan ⊢
        rcases x₁ with ⟨_, back₁⟩ | ⟨e₁, back₁⟩ <;> rcases x₂ with ⟨_, back₂⟩ | ⟨e₂, back₂⟩
        · obtain ⟨-, hback, hadded⟩ := hscan
          exact ⟨rfl, ⟨⟨hback.session₁, hback.session₂, hback.reports, hback.macros,
            hback.expanding, hst.including₁, hst.including₂⟩,
            fun hc => ⟨(hback.unmarked hc).session, (hback.unmarked hc).macros⟩⟩, hadded⟩
        · exact hscan
        · exact hscan
        · exact hscan

end Verilog
