import Dezyne.Lib.Lasso
import Dezyne.Lib.Prerequisites
/-!
# Files and their imports

The imports of a file are put before it, each with its own imports before it, except
for a file that is being imported already. Of the files that come several times only
the first ones stay. The main file, which is the last one then, goes to the front.
-/

namespace Dezyne.ContentAlist

open AppendMap Prerequisites Relation

variable {Name Dir Content File : Type}

/-! ## `parse:file->content-alist` -/

/-- The file system, the parser of imports and the arguments: file names with `dirname`, the name of a file in a
directory, which names are of a file, `canonicalize-file`, the content of a file by its canonical name, the names in
`import` statements, the directories `#:imports`, `#:content-alist` and `#:ignore-import-error?`, and what is done with
content that is preprocessed. -/
structure Files (Name Dir Content File : Type) where
  dirname : Name → Dir
  inDir : Dir → String → Name
  exists? : Name → Bool
  canonicalize : Name → File
  read : File → Content
  importedFileNames : Content → List String
  imports : List Dir
  contentAlist : List (Name × Content)
  ignoreImportError : Bool
  preprocessed : Content → Bool
  streamToContentAlist : Content → List (Name × Content)

namespace Files

variable (fs : Files Name Dir Content File)

/-- `search-path` -/
def searchPath (dirs : List Dir) (file : String) : Option Name := (dirs.map fun d => fs.inDir d file).find? fs.exists?

/-- `resolve`; `none` is the `import-error`. -/
def resolve (fromName : Name) : List String → Option (List Name)
  | [] => some []
  | file :: files =>
    match fs.searchPath (fs.dirname fromName :: fs.imports) file with
    | some name => (resolve fromName files).map (name :: ·)
    | none => if fs.ignoreImportError then resolve fromName files else none

variable [DecidableEq File]

/-- `file->string` -/
def fileToString (name : Name) : Content :=
  ((fs.contentAlist.find? fun e => fs.canonicalize e.1 = fs.canonicalize name).map Prod.snd).getD
    (fs.read (fs.canonicalize name))

/-- `file->imports`, with the names that are in its `content-alist` -/
def fileToImports : Nat → List Name → Name → Option (List Name)
  | 0, _, _ => none
  | fuel + 1, fileNames, name =>
    if fileNames.any fun n => fs.canonicalize n = fs.canonicalize name then some []
    else
      (fs.resolve name (fs.importedFileNames (fs.fileToString name))).bind fun imported =>
        (appendMap (fileToImports fuel (fileNames ++ [name])) imported).map (· ++ [name])

/-- `parse:file->content-alist` -/
def fileToContentAlist (fuel : Nat) (name : Name) : Option (List (Name × Content)) :=
  let content := fs.fileToString name
  if fs.preprocessed content then some (fs.streamToContentAlist content)
  else
    (fs.fileToImports fuel [] name).bind fun imports =>
      let imports := deleteDuplicates fs.canonicalize imports
      let alist := imports.map fun n => (n, fs.fileToString n)
      alist.getLast?.map fun last => last :: alist.dropLast

/-! ## The import graph -/

/-- The names of one file find the same files: they have the same directory. -/
def SameDirectory : Prop :=
  ∀ n m, fs.canonicalize n = fs.canonicalize m → ∀ file,
    let a := fs.inDir (fs.dirname n) file
    let b := fs.inDir (fs.dirname m) file
    fs.exists? a = fs.exists? b ∧ (fs.exists? a → fs.canonicalize a = fs.canonicalize b)

/-- A file imports a file. -/
def Imports (c d : File) : Prop :=
  ∃ n m, fs.canonicalize n = c ∧ fs.canonicalize m = d ∧
    ∃ file ∈ fs.importedFileNames (fs.fileToString n), fs.searchPath (fs.dirname n :: fs.imports) file = some m

/-- These files are all the files that are imported, and no import is missing, or that does not matter. -/
def Graph (files : List File) : Prop :=
  ∀ n, fs.canonicalize n ∈ files → ∀ file ∈ fs.importedFileNames (fs.fileToString n),
    match fs.searchPath (fs.dirname n :: fs.imports) file with
    | some m => fs.canonicalize m ∈ files
    | none => fs.ignoreImportError = true

end Files

variable {fs : Files Name Dir Content File} {n m : Name} {names imported : List Name} {files : List String}

theorem resolve_spec (h : fs.resolve n files = some imported) :
    m ∈ imported ↔ ∃ file ∈ files, fs.searchPath (fs.dirname n :: fs.imports) file = some m := by
  induction files generalizing imported with
  | nil =>
    cases h
    simp
  | cons file files ih =>
    rw [Files.resolve] at h
    cases hs : fs.searchPath (fs.dirname n :: fs.imports) file with
    | some name =>
      simp only [hs] at h
      obtain ⟨rest, hrest, rfl⟩ := Option.map_eq_some_iff.1 h
      simp [ih hrest, hs, eq_comm]
    | none =>
      simp only [hs] at h
      split at h
      · simp [ih h, hs]
      · cases h

theorem exists_resolve (h : ∀ file ∈ files, fs.searchPath (fs.dirname n :: fs.imports) file = none →
    fs.ignoreImportError = true) : ∃ imported, fs.resolve n files = some imported := by
  induction files with
  | nil => exact ⟨[], rfl⟩
  | cons file files ih =>
    obtain ⟨imported, himported⟩ := ih fun file hfile => h file (by simp [hfile])
    rw [Files.resolve]
    cases hs : fs.searchPath (fs.dirname n :: fs.imports) file with
    | some name => exact ⟨name :: imported, by rw [himported]; rfl⟩
    | none => exact ⟨imported, by simp [h file (by simp) hs, himported]⟩

section
variable [DecidableEq File]

theorem fileToString_congr (h : fs.canonicalize n = fs.canonicalize m) : fs.fileToString n = fs.fileToString m := by
  rw [Files.fileToString, Files.fileToString, h]

omit [DecidableEq File] in
/-- The names of one file find the same files, along the directories. -/
theorem searchPath_congr (hdir : fs.SameDirectory) (h : fs.canonicalize n = fs.canonicalize m) (file : String) :
    (fs.searchPath (fs.dirname n :: fs.imports) file).map fs.canonicalize =
      (fs.searchPath (fs.dirname m :: fs.imports) file).map fs.canonicalize := by
  obtain ⟨hexists, hcanonical⟩ := hdir n m h file
  simp only [Files.searchPath, List.map_cons, List.find?_cons, ← hexists]
  split
  · rename_i he
    rw [Option.map_some, Option.map_some, hcanonical he]
  · rfl

/-- What a name resolves to is what its file imports. -/
theorem imports_iff (hdir : fs.SameDirectory) {d : File}
    (h : fs.resolve n (fs.importedFileNames (fs.fileToString n)) = some imported) :
    fs.Imports (fs.canonicalize n) d ↔ ∃ m ∈ imported, fs.canonicalize m = d := by
  constructor
  · rintro ⟨n', m, hn, hm, file, hfile, hs⟩
    have hcongr := searchPath_congr hdir hn file
    rw [hs, Option.map_some] at hcongr
    obtain ⟨m', hm', heq⟩ := Option.map_eq_some_iff.1 hcongr.symm
    rw [fileToString_congr hn] at hfile
    exact ⟨m', (resolve_spec h).2 ⟨file, hfile, hm'⟩, heq.trans hm⟩
  · rintro ⟨m, hm, hd⟩
    obtain ⟨file, hfile, hs⟩ := (resolve_spec h).1 hm
    exact ⟨n, m, rfl, hd, file, hfile, hs⟩

/-! ## `file->imports` -/

/-- The files of names. -/
abbrev filesOf (fs : Files Name Dir Content File) (names : List Name) : List File := names.map fs.canonicalize

theorem any_canonicalize : (names.any fun m => fs.canonicalize m = fs.canonicalize n) = true ↔
    fs.canonicalize n ∈ filesOf fs names := by
  simp

/-- It comes to an end: the names that are being imported are of different files. -/
theorem exists_fileToImports {graph : List File} (hgraph : fs.Graph graph) :
    ∀ {fuel : Nat} {names : List Name} {n : Name}, fs.canonicalize n ∈ graph → (filesOf fs names).Nodup →
      filesOf fs names ⊆ graph → graph.length < fuel + names.length → ∃ l, fs.fileToImports fuel names n = some l := by
  intro fuel
  induction fuel with
  | zero =>
    intro names n _ hnd hsub hlen
    have hle := (List.subperm_of_subset hnd hsub).length_le
    rw [List.length_map] at hle
    omega
  | succ fuel ih =>
    intro names n hn hnd hsub hlen
    rw [Files.fileToImports]
    split
    · exact ⟨[], rfl⟩
    · rename_i hnot
      rw [any_canonicalize] at hnot
      obtain ⟨imported, himported⟩ := exists_resolve (n := n) fun file hfile hs => by
        have := hgraph n hn file hfile
        rwa [hs] at this
      have hall : ∀ m ∈ imported, ∃ l, fs.fileToImports fuel (names ++ [n]) m = some l := by
        intro m hm
        obtain ⟨file, hfile, hs⟩ := (resolve_spec himported).1 hm
        have hmem := hgraph n hn file hfile
        rw [hs] at hmem
        refine ih hmem ?_ ?_ ?_
        · rw [filesOf, List.map_append, List.nodup_append]
          refine ⟨hnd, List.nodup_singleton _, fun a ha b hb => ?_⟩
          rw [List.mem_singleton.1 hb]
          rintro rfl
          exact hnot ha
        · rw [filesOf, List.map_append, List.append_subset]
          exact ⟨hsub, by simpa using hn⟩
        · rw [List.length_append, List.length_singleton]
          omega
      obtain ⟨l, hl⟩ := exists_appendMap.2 hall
      exact ⟨l ++ [n], by rw [himported, Option.bind_some, hl]; rfl⟩

/-- Nothing for a file that is being imported already; otherwise the imports and then the name. -/
theorem fileToImports_cases {fuel : Nat} {l : List Name} (h : fs.fileToImports fuel names n = some l) :
    fs.canonicalize n ∈ filesOf fs names ∧ l = [] ∨
    fs.canonicalize n ∉ filesOf fs names ∧ ∃ f imported init, fuel = f + 1 ∧
      fs.resolve n (fs.importedFileNames (fs.fileToString n)) = some imported ∧
      appendMap (fs.fileToImports f (names ++ [n])) imported = some init ∧ l = init ++ [n] := by
  cases fuel with
  | zero => cases h
  | succ fuel =>
    rw [Files.fileToImports] at h
    split at h
    · rename_i hany
      exact .inl ⟨any_canonicalize.1 hany, (Option.some.inj h).symm⟩
    · rename_i hany
      obtain ⟨imported, himported, h⟩ := Option.bind_eq_some_iff.1 h
      obtain ⟨init, hinit, rfl⟩ := Option.map_eq_some_iff.1 h
      exact .inr ⟨fun hmem => hany (any_canonicalize.2 hmem), fuel, imported, init, rfl, himported, hinit, rfl⟩

omit [DecidableEq File] in
theorem mem_filesOf_snoc {c : File} : c ∈ filesOf fs (names ++ [n]) ↔ c ∈ filesOf fs names ∨ c = fs.canonicalize n := by
  simp [eq_comm]

/-- No file that is being imported comes again. -/
theorem not_mem_of_fileToImports : ∀ {fuel : Nat} {names : List Name} {n : Name} {l : List Name},
    fs.fileToImports fuel names n = some l → ∀ m ∈ l, fs.canonicalize m ∉ filesOf fs names := by
  intro fuel
  induction fuel with
  | zero => intro names n l h; cases h
  | succ fuel ih =>
    intro names n l h m hm
    rcases fileToImports_cases h with ⟨-, rfl⟩ | ⟨hnot, f, imported, init, hf, -, hinit, rfl⟩
    · cases hm
    · obtain rfl : fuel = f := by omega
      rcases List.mem_append.1 hm with hm | hm
      · obtain ⟨k, -, lk, hk, hm⟩ := (mem_appendMap hinit).1 hm
        exact fun hmem => ih hk m hm (mem_filesOf_snoc.2 (.inl hmem))
      · rw [List.mem_singleton.1 hm]
        exact hnot

/-- All files that come are reached. -/
theorem reached_of_fileToImports (hdir : fs.SameDirectory) : ∀ {fuel : Nat} {names : List Name} {n : Name}
    {l : List Name}, fs.fileToImports fuel names n = some l → ∀ m ∈ l,
      ReflTransGen fs.Imports (fs.canonicalize n) (fs.canonicalize m) := by
  intro fuel
  induction fuel with
  | zero => intro names n l h; cases h
  | succ fuel ih =>
    intro names n l h m hm
    rcases fileToImports_cases h with ⟨-, rfl⟩ | ⟨-, f, imported, init, hf, himported, hinit, rfl⟩
    · cases hm
    · obtain rfl : fuel = f := by omega
      rcases List.mem_append.1 hm with hm | hm
      · obtain ⟨k, hk, lk, hlk, hm⟩ := (mem_appendMap hinit).1 hm
        exact .head ((imports_iff hdir himported).2 ⟨k, hk, rfl⟩) (ih hlk m hm)
      · rw [List.mem_singleton.1 hm]

/-- A file comes that is reached without those that are being imported. -/
theorem mem_of_avoids (hdir : fs.SameDirectory) {c : File} : ∀ {fuel : Nat} {names : List Name} {n : Name}
    {l : List Name}, fs.fileToImports fuel names n = some l → fs.canonicalize n ∉ filesOf fs names →
      Lasso.Avoids fs.Imports (filesOf fs names) (fs.canonicalize n) c → c ∈ filesOf fs l := by
  intro fuel
  induction fuel with
  | zero => intro names n l h; cases h
  | succ fuel ih =>
    intro names n l h hn hway
    rcases fileToImports_cases h with ⟨hmem, -⟩ | ⟨-, f, imported, init, hf, himported, hinit, rfl⟩
    · exact absurd hmem hn
    · obtain rfl : fuel = f := by omega
      by_cases hc : fs.canonicalize n = c
      · exact mem_filesOf_snoc.2 (.inr hc.symm)
      · obtain ⟨d, hd, hnot, hway⟩ := hway.leave hc
        obtain ⟨k, hk, rfl⟩ := (imports_iff hdir himported).1 hd
        obtain ⟨lk, hlk, hsub⟩ := subset_appendMap hinit hk
        have hsame : ∀ c, c ∈ filesOf fs (names ++ [n]) ↔ c ∈ fs.canonicalize n :: filesOf fs names := by
          intro c
          rw [mem_filesOf_snoc, List.mem_cons, or_comm]
        have hmem : c ∈ filesOf fs lk := by
          refine ih hlk (fun hmem => hnot ((hsame _).1 hmem)) ?_
          simpa only [Lasso.Avoids, hsame] using hway
        exact mem_filesOf_snoc.2 (.inl (List.map_subset _ hsub hmem))

theorem ready_appendMap {f : Name → Option (List Name)} {l r : List Name} {done : List File}
    (h : appendMap f l = some r)
    (hf : ∀ a ∈ l, ∀ s, f a = some s → ∀ done, Ready fs.Imports fs.canonicalize done s) :
    Ready fs.Imports fs.canonicalize done r := by
  induction l generalizing r done with
  | nil =>
    cases h
    trivial
  | cons a l ih =>
    obtain ⟨ra, rs, ha, hs, rfl⟩ := appendMap_cons_eq_some.1 h
    exact ready_append.2 ⟨hf a (by simp) ra ha done, ih hs fun b hb => hf b (by simp [hb])⟩

/-- Without cycles every file comes after its imports. -/
theorem ready_fileToImports (hdir : fs.SameDirectory) : ∀ {fuel : Nat} {names : List Name} {n : Name} {l : List Name},
    fs.fileToImports fuel names n = some l →
    (∀ c, ReflTransGen fs.Imports (fs.canonicalize n) c → ¬ TransGen fs.Imports c c) →
    (∀ a ∈ filesOf fs names, TransGen fs.Imports a (fs.canonicalize n)) →
    (∃ init, l = init ++ [n]) ∧ ∀ done, Ready fs.Imports fs.canonicalize done l := by
  intro fuel
  induction fuel with
  | zero => intro names n l h; cases h
  | succ fuel ih =>
    intro names n l h hacyclic hancestors
    rcases fileToImports_cases h with ⟨hmem, -⟩ | ⟨-, f, imported, init, hf, himported, hinit, rfl⟩
    · exact absurd (hancestors _ hmem) (hacyclic _ .refl)
    · obtain rfl : fuel = f := by omega
      have hpart : ∀ k ∈ imported, ∀ lk, fs.fileToImports fuel (names ++ [n]) k = some lk →
          (∃ init, lk = init ++ [k]) ∧ ∀ done, Ready fs.Imports fs.canonicalize done lk := by
        intro k hk lk hlk
        have hedge : fs.Imports (fs.canonicalize n) (fs.canonicalize k) := (imports_iff hdir himported).2 ⟨k, hk, rfl⟩
        refine ih hlk (fun c hc => hacyclic c (.head hedge hc)) fun a ha => ?_
        rcases mem_filesOf_snoc.1 ha with ha | rfl
        · exact (hancestors a ha).tail hedge
        · exact .single hedge
      refine ⟨⟨init, rfl⟩, fun done => ready_append.2 ⟨?_, fun d hd => ?_, trivial⟩⟩
      · exact ready_appendMap hinit fun k hk lk hlk => (hpart k hk lk hlk).2
      · obtain ⟨k, hk, rfl⟩ := (imports_iff hdir himported).1 hd
        obtain ⟨lk, hlk, hsub⟩ := subset_appendMap hinit hk
        obtain ⟨⟨pre, rfl⟩, -⟩ := hpart k hk lk hlk
        exact List.mem_append_left _ (List.mem_map_of_mem (hsub (by simp)))

/-! ## The result -/

end

/-- A main file that imports `a.dzn` and `b.dzn`, and `a.dzn` that imports `b.dzn`, in one directory; a file name has the
components of its directory, where `.` may occur. -/
def twice : Files (List String × String) (List String) String (List String × String) where
  dirname := Prod.fst
  inDir d file := (d, file)
  exists? n := n.1.filter (· ≠ ".") = [] ∧ n.2 ∈ ["main.dzn", "a.dzn", "b.dzn"]
  canonicalize n := (n.1.filter (· ≠ "."), n.2)
  read := Prod.snd
  importedFileNames content :=
    if content = "main.dzn" then ["a.dzn", "b.dzn"] else if content = "a.dzn" then ["b.dzn"] else []
  imports := []
  contentAlist := []
  ignoreImportError := false
  preprocessed _ := false
  streamToContentAlist _ := []

end Dezyne.ContentAlist
