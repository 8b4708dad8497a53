import FunctionAlgebra.Archive.Store
import FunctionAlgebra.Proofs.Induction

/-!
# Files and their names

A plain name leads straight to a place. Where no other file is in the way, nothing but the file at
that place matters for saving and loading under the name.

## Main definitions

* `IsPlain` — all parts of a name are names of entries.
* `Archive.Clear` — no file lies on the way to a place or below it.

## Main statements

* `Record.toFn?_toRecord` — a function is rebuilt from its record, canonical leaves included.
* `Archive.save_eq`, `Archive.load_eq_ok`, `Archive.load_eq_missing` — saving and loading at a clear
  place.
-/

namespace FunctionAlgebra

variable {α : Type}

/-! ## Records -/

namespace Record

theorem allToFns?_allToRecords {fs : List (Fn α)} (h : ∀ f ∈ fs, f.toRecord.toFn? = some f) :
    allToFns? (Fn.allToRecords fs) = some fs := by
  induction fs with
  | nil => rfl
  | cons f fs ih =>
    rw [List.forall_mem_cons] at h
    simp [Fn.allToRecords, allToFns?, h.1, ih h.2]

theorem allToFns?_payloadsToRecords {segments : List (Segment α (Fn α))}
    (h : ∀ s ∈ segments, s.payload.toRecord.toFn? = some s.payload) :
    allToFns? (Fn.payloadsToRecords segments) = some (segments.map (·.payload)) := by
  induction segments with
  | nil => rfl
  | cons s rest ih =>
    rw [List.forall_mem_cons] at h
    simp [Fn.payloadsToRecords, allToFns?, h.1, ih h.2]

/-- A function is rebuilt from its record, node by node. -/
theorem toFn?_toRecord (f : Fn α) : f.toRecord.toFn? = some f := by
  induction f with
  | zero | one | undefined => rfl
  | const v => rfl
  | plain k s => cases k <;> rfl
  | chain k s f ih =>
    simp only [Fn.toRecord, toFn?, allToFns?, ih]
    cases k <;> rfl
  | sum ts ih => simp [Fn.toRecord, toFn?, allToFns?_allToRecords ih, Fn.ofParts?]
  | product fs ih => simp [Fn.toRecord, toFn?, allToFns?_allToRecords ih, Fn.ofParts?]
  | quotient n d ihn ihd => simp [Fn.toRecord, toFn?, allToFns?, ihn, ihd, Fn.ofParts?]
  | piecewise segments ih =>
    have hzip : (segments.map (·.range)).zipWith Segment.mk (segments.map (·.payload)) =
        segments := by
      simp [List.zipWith_map]
    simp [Fn.toRecord, toFn?, allToFns?_payloadsToRecords ih, Fn.ofParts?, hzip]

end Record

/-! ## Plain names -/

theorem splitSlashes_eq_singleton {cs : List Char} (h : '/' ∉ cs) : splitSlashes cs = [cs] := by
  induction cs with
  | nil => rfl
  | cons c cs ih =>
    rw [List.mem_cons, not_or] at h
    simp [splitSlashes, ih h.2, Ne.symm h.1]

/-- What is added without a slash is added to the last piece. -/
theorem splitSlashes_append {ds : List Char} (h : '/' ∉ ds) (cs : List Char) :
    ∃ init last, splitSlashes cs = init ++ [last] ∧
      splitSlashes (cs ++ ds) = init ++ [last ++ ds] := by
  induction cs with
  | nil => exact ⟨[], [], rfl, splitSlashes_eq_singleton h⟩
  | cons c cs ih =>
    obtain ⟨init, last, hcs, hds⟩ := ih
    by_cases hc : c = '/'
    · exact ⟨[] :: init, last, by simp [splitSlashes, hc, hcs], by simp [splitSlashes, hc, hds]⟩
    · cases init with
      | nil =>
        exact ⟨[], c :: last, by simp [splitSlashes, hc, hcs], by simp [splitSlashes, hc, hds]⟩
      | cons piece pieces =>
        exact ⟨(c :: piece) :: pieces, last, by simp [splitSlashes, hc, hcs],
          by simp [splitSlashes, hc, hds]⟩

def IsEntryName (part : String) : Prop := part ≠ "" ∧ part ≠ "." ∧ part ≠ ".."

instance (part : String) : Decidable (IsEntryName part) := inferInstanceAs (Decidable (_ ∧ _ ∧ _))

/-- A name whose parts are the names of entries, one below the other. -/
structure IsPlain (name : String) : Prop where
  isPath : Archive.isPath name = true
  parts : ∀ part ∈ pathParts name, IsEntryName part

instance (name : String) : Decidable (IsPlain name) :=
  decidable_of_iff (Archive.isPath name = true ∧ ∀ part ∈ pathParts name, IsEntryName part)
    ⟨fun h => ⟨h.1, h.2⟩, fun h => ⟨h.isPath, h.parts⟩⟩

theorem pathParts_injective {k l : String} (h : pathParts k = pathParts l) : k = l := by
  rw [← pathOf_pathParts k, h, pathOf_pathParts]

theorem pathParts_ne_nil (name : String) : pathParts name ≠ [] := by
  simp [pathParts, splitSlashes_ne_nil]

/-- With the ending, a plain name is plain. -/
theorem IsPlain.fileName {name : String} (h : IsPlain name) : IsPlain (Archive.fileName name) := by
  unfold Archive.fileName
  split_ifs with hend
  · exact h
  have hending : Archive.ending.toList = ['.', 'n', 'p', 'y'] := by decide
  constructor
  · have := h.isPath
    simp_all [Archive.isPath]
  · have hslash : '/' ∉ Archive.ending.toList := by simp [hending]
    obtain ⟨init, last, hname, hfile⟩ := splitSlashes_append hslash name.toList
    have hparts := h.parts
    rw [pathParts, hname, List.map_append, List.forall_mem_append] at hparts
    rw [pathParts, String.toList_append, hfile, List.map_append, List.forall_mem_append]
    refine ⟨hparts.1, ?_⟩
    -- the last part is too long to stand for a directory relative to another
    have hlong (part : String) (hshort : part.length < 3) :
        String.ofList (last ++ Archive.ending.toList) ≠ part := by
      rintro rfl
      rw [String.length_ofList, List.length_append, hending] at hshort
      simp only [List.length_cons] at hshort
      omega
    rw [List.map_singleton, List.forall_mem_singleton]
    exact ⟨hlong "" (by decide), hlong "." (by decide), hlong ".." (by decide)⟩

namespace Place

theorem enter_eq {part : String} (h : IsEntryName part) (place : Place) :
    place.enter part = place ++ [part] := by
  obtain ⟨hempty, hdot, hback⟩ := h
  simp [enter, hempty, hdot, hback]

/-- The names of entries are entered one by one. -/
theorem foldl_enter {parts : List String} (h : ∀ part ∈ parts, IsEntryName part) (place : Place) :
    parts.foldl enter place = place ++ parts := by
  induction parts generalizing place with
  | nil => simp
  | cons part rest ih =>
    rw [List.forall_mem_cons] at h
    rw [List.foldl_cons, ih h.2, enter_eq h.1, List.append_assoc, List.singleton_append]

variable {entryAt : Place → Option Entry} {place : Place} {parts : List String}

/-- A path leads to its place if there are directories all the way. -/
theorem follow_eq_ok (hparts : ∀ part ∈ parts, IsEntryName part)
    (h : ∀ init tail, init ++ tail = parts → tail ≠ [] →
      entryAt (place ++ init) = some .directory) :
    follow entryAt place parts = .ok (place ++ parts) := by
  induction parts generalizing place with
  | nil => simp [follow]
  | cons part rest ih =>
    have hstart : entryAt place = some .directory := by
      simpa using h [] (part :: rest) rfl (by simp)
    rw [List.forall_mem_cons] at hparts
    rw [follow, hstart]
    dsimp only
    rw [enter_eq hparts.1, ih hparts.2, List.append_assoc, List.singleton_append]
    intro init tail hsplit htail
    simpa using h (part :: init) tail (by simp [hsplit]) htail

/-- A path with no file on the way leads to its place or breaks off. -/
theorem follow_eq_ok_or_missing (hparts : ∀ part ∈ parts, IsEntryName part)
    (h : ∀ init tail, init ++ tail = parts → tail ≠ [] →
      entryAt (place ++ init) ≠ some .file) :
    follow entryAt place parts = .ok (place ++ parts) ∨
      follow entryAt place parts = .error .missing := by
  induction parts generalizing place with
  | nil => simp [follow]
  | cons part rest ih =>
    have hstart : entryAt place ≠ some .file := by
      simpa using h [] (part :: rest) rfl (by simp)
    rw [List.forall_mem_cons] at hparts
    rw [follow]
    cases hentry : entryAt place with
    | none => exact .inr rfl
    | some entry =>
      cases entry with
      | file => exact absurd hentry hstart
      | directory =>
        have hbelow (init tail : List String) (hsplit : init ++ tail = rest) (htail : tail ≠ []) :
            entryAt (place ++ [part] ++ init) ≠ some .file := by
          simpa using h (part :: init) tail (by simp [hsplit]) htail
        simpa [enter_eq hparts.1] using ih hparts.2 hbelow

end Place

/-! ## Clear places -/

namespace Archive

variable {a : Archive α} {place : Place}

theorem lookup_filter_of_ne {p : Place} (h : p ≠ place) (files : List (Place × Content α)) :
    (files.filter (·.1 != place)).lookup p = files.lookup p := by
  induction files with
  | nil => rfl
  | cons file files ih =>
    obtain ⟨q, content⟩ := file
    by_cases hq : q = place
    · subst hq
      simp [List.lookup_cons, ih, beq_eq_false_iff_ne.2 h]
    · simp [List.lookup_cons, ih, hq]

/-- After writing a file, it is found at its place, and other files where they were. -/
theorem get?_put (a : Archive α) (place p : Place) (content : Content α) :
    (a.put place content).get? p = if p = place then some content else a.get? p := by
  rw [get?, put, List.lookup_cons]
  by_cases h : p = place
  · simp [h]
  · simp [h, lookup_filter_of_ne h, get?, beq_eq_false_iff_ne.2 h]

theorem get?_eq_none_iff : a.get? place = none ↔ ∀ file ∈ a.files, place ≠ file.1 := by
  simp only [get?, List.lookup_eq_none_iff, bne_iff_ne]

structure Clear (a : Archive α) (place : Place) : Prop where
  above : ∀ file ∈ a.files, file.1 <+: place → file.1 = place
  below : ∀ file ∈ a.files, place <+: file.1 → file.1 = place

/-- There are directories on the way to a file. -/
theorem hasDirectory_of_get? {init tail : List String} (hsplit : init ++ tail = place)
    (htail : tail ≠ []) (h : a.get? place ≠ none) : a.hasDirectory init = true := by
  rw [Ne, get?_eq_none_iff, Classical.not_forall] at h
  obtain ⟨file, h⟩ := h
  obtain ⟨hfile, rfl⟩ : file ∈ a.files ∧ place = file.1 := by simpa using h
  rw [hasDirectory, List.any_eq_true]
  exact ⟨file, hfile, by simp [← hsplit, htail]⟩

namespace Clear

variable {made : Place} {init tail : List String}

/-- On the way to a clear place there is no file. -/
theorem get?_eq_none (h : a.Clear place) (hsplit : init ++ tail = place) (htail : tail ≠ []) :
    a.get? init = none := by
  rw [get?_eq_none_iff]
  rintro file hfile rfl
  have hplace := h.above file hfile ⟨tail, hsplit⟩
  exact htail (by simpa using hsplit.trans hplace.symm)

/-- Below a clear place there is no file. -/
theorem hasDirectory_eq_false (h : a.Clear place) : a.hasDirectory place = false := by
  rw [hasDirectory, List.any_eq_false]
  rintro ⟨file, content⟩ hfile
  simp only [Bool.and_eq_true, List.isPrefixOf_iff_prefix, bne_iff_ne]
  rintro ⟨hstart, hne⟩
  exact hne (h.below _ hfile hstart).symm

/-- What lies at a clear place is a file or nothing. -/
theorem entryAt_eq (h : a.Clear place) (hmade : ¬ place <+: made) :
    a.entryAt made place = if (a.get? place).isSome then some .file else none := by
  rw [entryAt, h.hasDirectory_eq_false]
  simp [hmade]

/-- On the way to a clear place, there are directories if they have been made. -/
theorem entryAt_init (h : a.Clear place) (hsplit : init ++ tail = place) (htail : tail ≠ [])
    (hdir : init <+: made ∨ a.hasDirectory init = true) :
    a.entryAt made init = some .directory := by
  rw [entryAt, h.get?_eq_none hsplit htail]
  rcases hdir with hmade | hbelow
  · simp [hmade]
  · simp [hbelow]

theorem entryAt_init_ne_file (h : a.Clear place) (hsplit : init ++ tail = place)
    (htail : tail ≠ []) : a.entryAt made init ≠ some .file := by
  rw [entryAt, h.get?_eq_none hsplit htail]
  simp

end Clear

/-! ## Saving and loading -/

/-- The directories on the way to a clear place can be made. -/
theorem makeDirectories_eq_ok (directory : String) {parts : List String} 
    (h : ∀ init tail, init ++ tail = parts → init ≠ [] → a.get? (place ++ init) = none) :
    a.makeDirectories directory place parts = .ok () := by
  induction parts generalizing place with
  | nil => rfl
  | cons part rest ih =>
    have hhere : a.get? (place ++ [part]) = none := h [part] rest rfl (by simp)
    rw [makeDirectories.eq_def]
    simp only [hhere]
    refine ih fun init tail hsplit _ => ?_
    simpa using h (part :: init) tail (by simp [hsplit]) (by simp)

theorem ofParts_dropLast {parts : List String} (h : ∀ part ∈ parts, IsEntryName part) :
    Place.ofParts parts.dropLast = parts.dropLast :=
  (Place.foldl_enter (fun part hpart => h part (List.dropLast_subset _ hpart)) []).trans
    (List.nil_append _)

/-- A file is written at a clear place unless a file is there that must be kept. -/
theorem write_eq {file : String} (hparts : ∀ part ∈ pathParts file, IsEntryName part)
    (h : a.Clear (pathParts file)) (directory : String) (overwrite : Bool) (content : Content α) :
    a.write (pathParts file).dropLast directory file overwrite content =
      if (a.get? (pathParts file)).isSome && !overwrite then
        .error (.fileExists (path directory file))
      else .ok (a.put (pathParts file) content) := by
  have hne := pathParts_ne_nil file
  have hfollow : Place.follow (a.entryAt (pathParts file).dropLast) [] (pathParts file) =
      .ok (pathParts file) := by
    refine Place.follow_eq_ok hparts fun init tail hsplit htail => ?_
    refine h.entryAt_init hsplit htail (.inl ?_)
    rw [← hsplit, List.dropLast_append_of_ne_nil htail]
    exact ⟨_, rfl⟩
  have hentry : a.entryAt (pathParts file).dropLast (pathParts file) =
      if (a.get? (pathParts file)).isSome then some .file else none := by
    refine h.entryAt_eq fun hstart => ?_
    have hlength := hstart.length_le
    have := List.length_pos_iff.2 hne
    rw [List.length_dropLast] at hlength
    omega
  rw [write.eq_def]
  simp only [hfollow, hentry]
  cases (a.get? (pathParts file)).isSome <;> cases overwrite <;> rfl

/-- A function is saved at a clear place unless a file is there that must be kept. -/
theorem save_eq {name : String} (hname : IsPlain name)
    (h : a.Clear (pathParts (fileName name))) (directory : String) (f : Fn α) (overwrite : Bool) :
    a.save directory name f overwrite =
      if (a.get? (pathParts (fileName name))).isSome && !overwrite then
        .error (.fileExists (path directory (fileName name)))
      else .ok (a.put (pathParts (fileName name)) (.function f.toRecord)) := by
  have hparts := hname.fileName.parts
  have hmake : a.makeDirectories directory [] (pathParts (fileName name)).dropLast = .ok () := by
    refine makeDirectories_eq_ok directory fun init tail hsplit _ => ?_
    have hlast := List.dropLast_concat_getLast (pathParts_ne_nil (fileName name))
    rw [← hsplit, List.append_assoc] at hlast
    exact h.get?_eq_none hlast (by simp)
  unfold save
  dsimp only
  rw [ofParts_dropLast hparts, hmake, hname.isPath]
  exact write_eq hparts h directory overwrite _

/-- A function that is stored at a clear place is loaded. -/
theorem load_eq_ok {name : String} (hname : IsPlain name) (h : a.Clear (pathParts name))
    {f : Fn α} (hf : a.get? (pathParts name) = some (.function f.toRecord)) (directory : String) :
    a.load directory name = .ok f := by
  have hfollow : Place.follow (a.entryAt []) [] (pathParts name) = .ok (pathParts name) := by
    refine Place.follow_eq_ok hname.parts fun init tail hsplit htail => ?_
    exact h.entryAt_init hsplit htail (.inr (hasDirectory_of_get? hsplit htail (by simp [hf])))
  simp [load, hname.isPath, hfollow, hf, Record.toFn?_toRecord]

/-- Nothing is loaded from a clear place without a file. -/
theorem load_eq_missing {name : String} (hname : IsPlain name) (h : a.Clear (pathParts name))
    (hnone : a.get? (pathParts name) = none) (directory : String) :
    a.load directory name = .error (.fileMissing (quoted (path directory name))) := by
  have hentry : a.entryAt [] (pathParts name) = none := by
    rw [h.entryAt_eq (by simp [pathParts_ne_nil]), hnone]
    rfl
  have hinit (init tail : List String) (hsplit : init ++ tail = pathParts name)
      (htail : tail ≠ []) :
      a.entryAt [] ([] ++ init) ≠ some .file := h.entryAt_init_ne_file hsplit htail
  obtain hfollow | hfollow := Place.follow_eq_ok_or_missing hname.parts hinit
  · simp [load, hname.isPath, hfollow, hnone, hentry]
  · simp [load, hname.isPath, hfollow, obstructed]

end Archive

end FunctionAlgebra
