import Verilog.Proofs.Step

/-!
# Where files stand

A session writes its log while it is at work, and the log may be among the files it can see. What it
writes is added to a file that is there: a log opens its file when it is bound to it, and where that
fails it fails again later. So whatever a session reports, the same things stand at the same
locations (`Session.Settled.addAll`), and only what one file holds has changed.
-/

namespace Verilog

/-! ### Stores that differ in the contents of files -/

/-- What stands at a location, whatever a file holds. -/
def FileEntry.bare : FileEntry → FileEntry
  | .file _ => .file .empty
  | entry => entry

namespace FileStore

/-- **Do the same things stand at the same locations?** -/
structure SamePlaces (s t : FileStore) : Prop where
  find : ∀ loc, (t.find? loc).map FileEntry.bare = (s.find? loc).map FileEntry.bare
  locations : t.entries.map (·.1) = s.entries.map (·.1)

namespace SamePlaces

variable {s t u : FileStore}

theorem refl (s : FileStore) : SamePlaces s s := ⟨fun _ => rfl, rfl⟩

theorem trans (h : SamePlaces s t) (h' : SamePlaces t u) : SamePlaces s u :=
  ⟨fun loc => (h'.find loc).trans (h.find loc), h'.locations.trans h.locations⟩

theorem isSome_find (h : SamePlaces s t) (loc : FileLocation) :
    (t.find? loc).isSome = (s.find? loc).isSome := by
  simpa using congrArg Option.isSome (h.find loc)

theorem isDirectory (h : SamePlaces s t) (loc : FileLocation) :
    t.isDirectory loc = s.isDirectory loc := by
  have hfind := h.find loc
  rw [FileStore.isDirectory, FileStore.isDirectory]
  generalize t.find? loc = e, s.find? loc = e' at hfind
  rcases e with _ | _ | _ <;> rcases e' with _ | _ | _ <;> simp_all [FileEntry.bare]

/-- Paths lead to the same locations. -/
theorem locate (h : SamePlaces s t) (path : String) : t.locate path = s.locate path := by
  have hstep (loc : FileLocation) (piece : List Char) : t.step loc piece = s.step loc piece := by
    rw [step, step, h.isDirectory]
  rw [FileStore.locate, FileStore.locate]
  simp only [hstep]

theorem canonical (h : SamePlaces s t) (path : String) : t.canonical? path = s.canonical? path := by
  simp only [canonical?, h.locate, h.isSome_find]

/-- The same files are there. -/
theorem isFile (h : SamePlaces s t) (path : String) : t.isFile path = s.isFile path := by
  rw [FileStore.isFile, FileStore.isFile, bytes?, bytes?, h.locate]
  cases s.locate path with
  | none => rfl
  | some loc =>
    have hfind := h.find loc
    rw [Option.bind_some, Option.bind_some]
    generalize t.find? loc = e, s.find? loc = e' at hfind
    rcases e with _ | _ | _ <;> rcases e' with _ | _ | _ <;> simp_all [FileEntry.bare]

end SamePlaces

theorem find?_of_all {loc : FileLocation} (s : FileStore) (h : loc.all (· == "..") = true) :
    s.find? loc = some .directory := by
  rw [find?, if_pos h]

theorem find?_of_not_all {loc : FileLocation} (s : FileStore) (h : ¬loc.all (· == "..") = true) :
    s.find? loc = (s.entries.find? (·.1 == loc)).map (·.2) := by
  rw [find?, if_neg h]

theorem location_of_find? {entries : List (FileLocation × FileEntry)} {loc : FileLocation}
    {x : FileLocation × FileEntry} (h : entries.find? (·.1 == loc) = some x) : x.1 = loc := by
  simpa using List.find?_some (p := fun x : FileLocation × FileEntry => x.1 == loc) h

/-- A file that is there is an entry of the store. -/
theorem mem_locations {s : FileStore} {loc : FileLocation} {content : ByteArray}
    (h : s.find? loc = some (.file content)) : loc ∈ s.entries.map (·.1) := by
  by_cases hup : loc.all (· == "..") = true
  · rw [s.find?_of_all hup] at h
    cases h
  · rw [s.find?_of_not_all hup] at h
    obtain ⟨entry, hentry, -⟩ := Option.map_eq_some_iff.mp h
    exact List.mem_map.mpr ⟨entry, List.mem_of_find?_eq_some hentry, location_of_find? hentry⟩

/-- Putting another entry in the place of the one that is found. -/
theorem find?_replace (entries : List (FileLocation × FileEntry)) (loc at? : FileLocation)
    (e : FileEntry) :
    (entries.map fun x => if x.1 == loc then (loc, e) else x).find? (·.1 == at?) =
      (entries.find? (·.1 == at?)).map fun x => if x.1 == loc then (loc, e) else x := by
  rw [List.find?_map]
  congr 2
  funext x
  by_cases hx : x.1 = loc
  · simp [hx]
  · simp [hx]

/-- **What a file holds may change**: the same things stand at the same locations. -/
theorem samePlaces_put {s : FileStore} {loc : FileLocation} {old : ByteArray}
    (h : s.find? loc = some (.file old)) (new : ByteArray) :
    SamePlaces s (s.put loc (.file new)) := by
  have hany : s.entries.any (·.1 == loc) = true := by
    obtain ⟨x, hx, rfl⟩ := List.mem_map.mp (mem_locations h)
    exact List.any_eq_true.mpr ⟨x, hx, beq_self_eq_true _⟩
  rw [put, if_pos hany]
  constructor
  · intro at?
    by_cases hup : at?.all (· == "..") = true
    · rw [find?_of_all _ hup, find?_of_all _ hup]
    · rw [find?_of_not_all _ hup, find?_of_not_all _ hup, find?_replace]
      cases hfind : s.entries.find? (·.1 == at?) with
      | none => rfl
      | some x =>
        rw [Option.map_some]
        by_cases hx : x.1 = loc
        · -- the entry that is found at the location is that of the file
          obtain rfl : at? = loc := (location_of_find? hfind).symm.trans hx
          rw [s.find?_of_not_all hup, hfind] at h
          obtain ⟨x₁, x₂⟩ := x
          obtain rfl : x₂ = .file old := Option.some.inj h
          obtain rfl : x₁ = at? := hx
          simp [FileEntry.bare]
        · simp [hx]
  · rw [List.map_map]
    refine List.map_congr_left fun x _ => ?_
    by_cases hx : x.1 = loc
    · simp [hx]
    · simp [hx]

/-- **Has at most the file at a location changed**, if there is one, in what it holds? -/
structure Grows (loc : Option FileLocation) (s t : FileStore) : Prop extends SamePlaces s t where
  elsewhere : ∀ at?, loc ≠ some at? → t.find? at? = s.find? at?

namespace Grows

variable {s t u : FileStore} {loc : Option FileLocation}

theorem refl (s : FileStore) : Grows loc s s := ⟨.refl s, fun _ _ => rfl⟩

theorem trans (h : Grows loc s t) (h' : Grows loc t u) : Grows loc s u :=
  ⟨h.toSamePlaces.trans h'.toSamePlaces, fun at? hne =>
    (h'.elsewhere at? hne).trans (h.elsewhere at? hne)⟩

/-- A path that leads elsewhere leads to the same text. -/
theorem text {path : String} (h : Grows loc s t)
    (hpath : ∀ at?, loc = some at? → s.locate path ≠ some at?) : t.text? path = s.text? path := by
  rw [text?, text?, bytes?, bytes?, h.locate]
  cases hfound : s.locate path with
  | none => rfl
  | some at? =>
    rw [Option.bind_some, Option.bind_some, h.elsewhere at? fun hloc => hpath at? hloc hfound]

end Grows

theorem grows_put {s : FileStore} {loc : FileLocation} {old : ByteArray}
    (h : s.find? loc = some (.file old)) (new : ByteArray) :
    Grows (some loc) s (s.put loc (.file new)) := by
  refine ⟨samePlaces_put h new, fun at? hne => ?_⟩
  have hany : s.entries.any (·.1 == loc) = true := by
    obtain ⟨x, hx, rfl⟩ := List.mem_map.mp (mem_locations h)
    exact List.any_eq_true.mpr ⟨x, hx, beq_self_eq_true _⟩
  rw [put, if_pos hany]
  by_cases hup : at?.all (· == "..") = true
  · rw [find?_of_all _ hup, find?_of_all _ hup]
  · rw [find?_of_not_all _ hup, find?_of_not_all _ hup, find?_replace]
    cases hfind : s.entries.find? (·.1 == at?) with
    | none => rfl
    | some x =>
      have hx : x.1 ≠ loc := fun hx => hne (by rw [← hx, location_of_find? hfind])
      simp [hx]

theorem grows_append {s t : FileStore} {loc : FileLocation} {text : String}
    (h : s.append loc text = some t) : Grows (some loc) s t := by
  rw [FileStore.append] at h
  split at h
  · rename_i content hfind
    obtain rfl := Option.some.inj h
    exact grows_put hfind _
  · cases h

end FileStore

/-! ### Logs that make no file -/

namespace MessageLog

open FileStore

/-- **Is the file of a log open, or can it not be opened?** Then no more file is made for it. -/
def Settled (l : MessageLog) (files : FileStore) : Prop :=
  ∀ path, l.path = some path → l.handle = none → files.openAppend path = none

variable {l l' : MessageLog} {files files' : FileStore} {handle : FileLocation} {message : String}

/-- A settled log opens nothing but what is open. -/
theorem Settled.openFile (hl : l.Settled files)
    (h : l.openFile files = some (handle, l', files')) :
    l.handle = some handle ∧ l' = l ∧ files' = files := by
  rw [MessageLog.openFile] at h
  split at h
  · rename_i hhandle
    obtain ⟨rfl, hrest⟩ := Prod.mk.inj (Option.some.inj h)
    obtain ⟨rfl, rfl⟩ := Prod.mk.inj hrest
    exact ⟨hhandle, rfl, rfl⟩
  · cases h
  · rename_i path hhandle hpath
    have hnone : LogMedium.openAppend files path = none := hl path hpath hhandle
    rw [hnone] at h
    cases h

theorem grows_writeAll (messages : List String) :
    Grows (some handle) files (writeAll handle messages files).2 := by
  induction messages generalizing files with
  | nil => exact .refl _
  | cons message more ih =>
    rw [writeAll]
    split
    · rename_i h
      exact (grows_append h).trans ih
    · exact .refl _

/-- A log whose file is open is settled, whatever files there are. -/
theorem settled_of_handle (h : l.handle.isSome = true) : l.Settled files := by
  intro path _ hnone
  rw [hnone] at h
  cases h

theorem Settled.enqueue (hl : l.Settled files) : (l.enqueue message).Settled files := by
  rw [MessageLog.enqueue]
  split <;> exact hl

theorem Settled.flushBound (hl : l.Settled files) :
    (l.flushBound files).2.1.handle = l.handle ∧ (l.flushBound files).2.1.path = l.path ∧
      Grows l.handle files (l.flushBound files).2.2 := by
  rw [MessageLog.flushBound]
  split
  · exact ⟨rfl, rfl, .refl _⟩
  · split
    · exact ⟨rfl, rfl, .refl _⟩
    · rename_i h
      obtain ⟨hhandle, rfl, rfl⟩ := hl.openFile h
      exact ⟨rfl, rfl, hhandle ▸ grows_writeAll _⟩

@[simp] theorem handle_enqueue : (l.enqueue message).handle = l.handle := by
  rw [MessageLog.enqueue]
  split <;> rfl

@[simp] theorem path_enqueue : (l.enqueue message).path = l.path := by
  rw [MessageLog.enqueue]
  split <;> rfl

/-- **Logging a message makes no file**, and is seen in the file of the log only. -/
theorem Settled.log (hl : l.Settled files) :
    (l.log message files).2.1.Settled (l.log message files).2.2 ∧
      (l.log message files).2.1.handle = l.handle ∧
      Grows l.handle files (l.log message files).2.2 := by
  rw [MessageLog.log]
  split
  · exact ⟨hl.enqueue, handle_enqueue, .refl _⟩
  · split
    · exact ⟨hl.enqueue, handle_enqueue, .refl _⟩
    · rename_i handle l' files' h
      obtain ⟨hhandle, hlog, hfiles⟩ := hl.openFile h
      obtain ⟨hkept, -, hgrows⟩ := hl.flushBound
      rw [hlog, hfiles]
      -- the file is open, and so it stays
      have hopen : (l.flushBound files).2.1.handle.isSome = true := by rw [hkept, hhandle]; rfl
      split
      · rename_i heq
        rw [heq] at hopen hgrows hkept
        split
        · rename_i happend
          exact ⟨settled_of_handle hopen, hkept, hgrows.trans (hhandle ▸ grows_append happend)⟩
        · exact ⟨settled_of_handle (by simpa using hopen), handle_enqueue.trans hkept, hgrows⟩
      · rename_i heq
        rw [heq] at hopen hgrows hkept
        exact ⟨settled_of_handle (by simpa using hopen), handle_enqueue.trans hkept, hgrows⟩

/-- **A log that is bound is settled.** -/
theorem settled_bind (l : MessageLog) (path : String) (files : FileStore) :
    (l.bind path files).2.1.Settled (l.bind path files).2.2 := by
  rw [MessageLog.bind]
  cases hopen : LogMedium.openAppend files path with
  | none =>
    have hfile : openFile { l with path := some path, handle := none } files = none :=
      congrArg (Option.map _) hopen
    rw [hfile]
    rintro _ ⟨⟩ -
    exact hopen
  | some r =>
    have hfile : openFile { l with path := some path, handle := none } files =
        some (r.1, { l with path := some path, handle := some r.1 }, r.2) :=
      congrArg (Option.map _) hopen
    rw [hfile]
    have hset : Settled { l with path := some path, handle := some r.1 } r.2 :=
      settled_of_handle rfl
    exact settled_of_handle (by rw [hset.flushBound.1]; rfl)

end MessageLog

/-! ### Sessions -/

/-- **Is the log of a session open, or can it not be opened?** -/
def Session.Settled (s : Session) : Prop := s.log.Settled s.files

namespace Session

variable {s : Session}

theorem Settled.add (hs : s.Settled) (d : Diagnostic) :
    (s.add d).Settled ∧ (s.add d).log.handle = s.log.handle ∧
      s.files.Grows s.log.handle (s.add d).files := MessageLog.Settled.log hs

/-- **Whatever is reported**, the same things stand at the same locations, and files hold what they
held but the one that messages are logged to. -/
theorem Settled.addAll (hs : s.Settled) (ds : List Diagnostic) :
    (s.addAll ds).Settled ∧ (s.addAll ds).log.handle = s.log.handle ∧
      s.files.Grows s.log.handle (s.addAll ds).files := by
  induction ds generalizing s with
  | nil => exact ⟨hs, rfl, .refl _⟩
  | cons d ds ih =>
    obtain ⟨hadd, hhandle, hgrows⟩ := hs.add d
    obtain ⟨hall, hhandle', hmore⟩ := ih hadd
    exact ⟨hall, hhandle'.trans hhandle, hgrows.trans (hhandle ▸ hmore)⟩

/-- **A session that starts has opened its log** if it ever can. -/
theorem settled_start (config : Config) (files : FileStore) : (start config files).Settled := by
  rw [start]
  split
  · intro path hpath
    cases hpath
  · rename_i path hconfig
    have hbound := MessageLog.settled_bind { capacity := config.logCapacity } path files
    dsimp only
    split
    · exact hbound
    · refine (Settled.add ?_ _).1
      exact hbound

end Session

end Verilog
