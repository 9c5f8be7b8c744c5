import SmollChat.Verification.ModelsRepository.Files

/-! # What an import touches

An import writes the place its display name leads to from the app's directory, whatever is
there. The name comes from another app. -/

namespace SmollChat

namespace Storage

variable {filesDir : CString} {may : List Bytes → Bool} {s s' : Storage} {fileName : CString}
  {source : Source}

/-! ## Places -/

def dirOf (filesDir : CString) : List Bytes := FileTree.target (Path.components filesDir.bytes)

def importTarget (filesDir fileName : CString) : List Bytes :=
  FileTree.target (Path.components (Path.file filesDir.bytes fileName.bytes))

def LeadsTo (s : Storage) (path : CString) (d : List Bytes) : Prop :=
  path ≠ .empty ∧ s.files.walks (Path.components path.bytes) = true ∧
    FileTree.target (Path.components path.bytes) = d

instance (s : Storage) (path : CString) (d : List Bytes) : Decidable (s.LeadsTo path d) :=
  inferInstanceAs (Decidable (_ ∧ _ ∧ _))

/-- The name leads from the directory to the place that is written. -/
theorem importTarget_eq (filesDir fileName : CString) : importTarget filesDir fileName =
    (Path.components fileName.bytes).foldl (fun c k => k.go c) (dirOf filesDir) := by
  rw [importTarget, Path.components, Path.names_file, List.map_append, FileTree.target,
    List.foldl_append]
  rfl

theorem importTarget_modelPath (filesDir fileName : CString) :
    importTarget filesDir fileName =
      FileTree.target (Path.components (modelPath filesDir fileName).bytes) := by
  rw [importTarget, Path.components_file]
  rfl

/-! ## Imports that succeed -/

/-- The import writes one file, directly in the app's directory, for its own row only. -/
structure OwnFile (filesDir : CString) (s s' : Storage) (fileName : CString) (content : Bytes) :
    Prop where
  row : ∃ modelId path, s'.db.models = s.db.models ++ [⟨modelId, fileName, path⟩] ∧
    s'.LeadsTo path (importTarget filesDir fileName)
  written : s'.files.node (importTarget filesDir fileName) = some (.file content)
  only : ∀ d, d ≠ importTarget filesDir fileName → s'.files.node d = s.files.node d
  inside : ∃ name, importTarget filesDir fileName = name :: dirOf filesDir
  fresh : ∀ row ∈ s.db.models, ¬s.LeadsTo row.path (importTarget filesDir fileName)
  rows : ∀ row ∈ s.db.models, ∀ d, s.LeadsTo row.path d → s'.files.node d = s.files.node d
  outside : ∀ d, ¬dirOf filesDir <:+ d → s'.files.node d = s.files.node d

/-- The name, with its `.` and `..` resolved, leads from the directory to a place directly in
it that the path of no row leads to. -/
def NamesOwnPlace (filesDir : CString) (s : Storage) (fileName : CString) : Prop :=
  ∃ name, (Path.components fileName.bytes).foldl (fun c k => k.go c) (dirOf filesDir) =
      name :: dirOf filesDir ∧
    ∀ row ∈ s.db.models, ¬s.LeadsTo row.path (name :: dirOf filesDir)

theorem Imports.ownFile_iff {content : Bytes} (h : Imports filesDir may s s' fileName content) :
    OwnFile filesDir s s' fileName content ↔ NamesOwnPlace filesDir s fileName := by
  obtain ⟨hwrite, modelId, hrow⟩ := h
  have hnode (d : List Bytes) : s'.files.node d =
      if d = importTarget filesDir fileName then some (.file content) else s.files.node d := by
    rw [importTarget_modelPath]
    exact FileTree.node_write hwrite d
  rw [NamesOwnPlace, ← importTarget_eq]
  constructor
  · intro hown
    obtain ⟨name, hname⟩ := hown.inside
    exact ⟨name, hname, fun row hrow => hname ▸ hown.fresh row hrow⟩
  · rintro ⟨name, hname, hfresh⟩
    rw [← hname] at hfresh
    refine ⟨⟨modelId, _, hrow, ?_⟩, ?_, ?_, ⟨name, hname⟩, hfresh, ?_, ?_⟩
    · have hne := (FileTree.writable_iff.mp (FileTree.writable_of_write hwrite)).2.2.1
      refine ⟨?_, ?_, (importTarget_modelPath filesDir fileName).symm⟩
      · intro hempty
        rw [hempty] at hne
        exact hne rfl
      · have hcontains := FileTree.contains_write_self hwrite
        rw [FileTree.contains, Bool.and_eq_true] at hcontains
        exact hcontains.1
    · rw [hnode, if_pos rfl]
    · intro d hd
      rw [hnode, if_neg hd]
    · intro row hrow d hd
      rw [hnode, if_neg]
      rintro rfl
      exact hfresh row hrow hd
    · intro d hd
      rw [hnode, if_neg]
      rintro rfl
      exact hd (hname ▸ List.suffix_cons name _)

/-- A successful import touches only its own new file exactly if its name leads to a place of
its own in the app's directory. -/
theorem import_ownFile_iff (filesDir : CString) (may : List Bytes → Bool) (s : Storage)
    (fileName : CString) (source : Source) (modelId : ℕ) (s' : Storage)
    (h : s.copyAndSetNewModel filesDir may fileName source = (some modelId, s') ∨
      s.copyModelFile filesDir may fileName source = (some modelId, s')) :
    OwnFile filesDir s s' fileName source.copied ↔ NamesOwnPlace filesDir s fileName := by
  rcases h with h | h
  · exact (copyAndSetNewModel_imports h).ownFile_iff
  · exact (copyModelFile_imports h).ownFile_iff

theorem import_ownFile_first : OwnFile appDir appStorage
    (appStorage.copyModelFile appDir inAppDir (.lit "a.gguf") (.complete [1])).2
    (.lit "a.gguf") [1] :=
  (import_ownFile_iff appDir inAppDir appStorage (.lit "a.gguf") (.complete [1]) 2 _
    (.inr (Prod.ext (by decide +kernel) rfl))).mpr ⟨ascii "a.gguf", by decide +kernel⟩

def inDataDir (c : List Bytes) : Bool := c.tail.contains (ascii "data")

def importedStorage : Storage :=
  (appStorage.copyModelFile appDir inAppDir (.lit "a.gguf") (.complete [1])).2

/-- A name with `..` is written outside the directory, and the name of an earlier import over
its file. -/
theorem import_ownFile_fails :
    (∃ s', appStorage.copyAndSetNewModel appDir inDataDir (.lit "../x") (.complete [1]) =
        (some 2, s') ∧ ¬OwnFile appDir appStorage s' (.lit "../x") [1]) ∧
      ∃ s', importedStorage.copyAndSetNewModel appDir inAppDir (.lit "a.gguf") (.complete [2]) =
        (some 3, s') ∧ ¬OwnFile appDir importedStorage s' (.lit "a.gguf") [2] := by
  constructor
  · refine ⟨_, Prod.ext (by decide +kernel) rfl, fun hown => ?_⟩
    obtain ⟨name, hname⟩ := hown.inside
    have houtside : (importTarget appDir (.lit "../x")).tail ≠ dirOf appDir := by
      decide +kernel
    exact houtside (congrArg List.tail hname)
  · refine ⟨_, Prod.ext (by decide +kernel) rfl, fun hown => ?_⟩
    exact absurd hown.fresh (by decide +kernel)

/-! ## Imports that fail -/

inductive Importer where
  | copyAndSetNewModel
  | copyModelFile

def Importer.run (filesDir : CString) (may : List Bytes → Bool) (a : ChatActivity)
    (fileName : CString) (source : Source) : Importer → ChatActivity
  | copyAndSetNewModel => a.copyAndSetNewModel filesDir may fileName source
  | copyModelFile =>
      { a with storage := (a.storage.copyModelFile filesDir may fileName source).2 }

/-- The files of the app's directory, the rows, the preference and the current chat's model are
as they were. -/
structure NoTrace (filesDir : CString) (a a' : ChatActivity) : Prop where
  files : ∀ d, dirOf filesDir <:+ d → a'.storage.files.node d = a.storage.files.node d
  rows : a'.storage.db.models = a.storage.db.models
  selected : a'.storage.selectedModelId = a.storage.selectedModelId
  current : a'.currChat.map Chat.llmModelId = a.currChat.map Chat.llmModelId
  chats : a'.storage.db.chats = a.storage.db.chats

/-- The source or the place stops the import before it writes, or what it has copied changes
nothing in the app's directory. -/
def FailsClean (filesDir : CString) (may : List Bytes → Bool) (s : Storage) (fileName : CString) :
    Source → Prop
  | .throws => True
  | .missing | .complete _ => fileName = .empty ∨
      s.files.writable may (Path.components (Path.file filesDir.bytes fileName.bytes)) = false
  | .broken copied => fileName = .empty ∨
      s.files.writable may (Path.components (Path.file filesDir.bytes fileName.bytes)) = false ∨
      ¬dirOf filesDir <:+ importTarget filesDir fileName ∨
      s.files.node (importTarget filesDir fileName) = some (.file copied)

theorem copyFile_of_not_writable (h : s.files.writable may
      (Path.components (Path.file filesDir.bytes fileName.bytes)) = false) (source : Source) :
    s.copyFile filesDir may fileName source = (false, s) := by
  have hnone (content : Bytes) : s.files.write may
      (Path.components (Path.file filesDir.bytes fileName.bytes)) content = none := by
    rw [FileTree.write, dif_neg (by simp [h])]
  cases source <;> simp [copyFile, hnone]

/-- A copy that does not end leaves the row and the preference alone. -/
theorem Importer.run_of_copyFile {a : ChatActivity} {s : Storage} (importer : Importer)
    (hne : fileName ≠ .empty)
    (h : a.storage.copyFile filesDir may fileName source = (false, s)) :
    importer.run filesDir may a fileName source = { a with storage := s } := by
  have hname : fileName.isEmpty = false := CString.isEmpty_eq_false_iff.mpr hne
  have hadd : a.storage.addModel filesDir may fileName source = (none, s) := by
    rw [addModel, h]
  cases importer with
  | copyAndSetNewModel =>
      simp only [run, ChatActivity.copyAndSetNewModel, Storage.copyAndSetNewModel, hname, hadd]
      rfl
  | copyModelFile =>
      simp only [run, Storage.copyModelFile, hname, hadd]
      rfl

theorem Importer.run_empty (importer : Importer) (a : ChatActivity) (source : Source) :
    importer.run filesDir may a .empty source = a := by
  cases importer <;> rfl

theorem write_of_writable (h : s.files.writable may
      (Path.components (Path.file filesDir.bytes fileName.bytes)) = true) (content : Bytes) :
    ∃ files, s.files.write may
      (Path.components (Path.file filesDir.bytes fileName.bytes)) content = some files := by
  rw [FileTree.write, dif_pos h]
  exact ⟨_, rfl⟩

/-- A missing stream is no error: a row for the empty file is added. -/
theorem Importer.run_missing {a : ChatActivity} (importer : Importer) (hne : fileName ≠ .empty)
    (h : a.storage.files.writable may
      (Path.components (Path.file filesDir.bytes fileName.bytes)) = true) :
    ∃ row, (importer.run filesDir may a fileName .missing).storage.db.models =
      a.storage.db.models ++ [row] := by
  have hname : fileName.isEmpty = false := CString.isEmpty_eq_false_iff.mpr hne
  obtain ⟨files, hwrite⟩ := write_of_writable h []
  have hcopy : a.storage.copyFile filesDir may fileName .missing =
      (true, { a.storage with files := files }) := by
    simp [copyFile, Source.copied, hwrite]
  refine ⟨⟨a.storage.db.nextModel, fileName, modelPath filesDir fileName⟩, ?_⟩
  cases importer with
  | copyAndSetNewModel =>
      simp only [run, ChatActivity.copyAndSetNewModel, Storage.copyAndSetNewModel, hname, addModel,
        hcopy, ChatActivity.updateChatLLM]
      cases a.currChat <;> rfl
  | copyModelFile =>
      simp only [run, Storage.copyModelFile, hname, addModel, hcopy]
      rfl

theorem noTrace_refl (filesDir : CString) (a : ChatActivity) : NoTrace filesDir a a :=
  ⟨fun _ _ => rfl, rfl, rfl, rfl, rfl⟩

/-- An import whose source cannot be read completely leaves no trace exactly if it stops before
it writes, or writes outside the directory or what is there already. -/
theorem failedImport_iff (filesDir : CString) (may : List Bytes → Bool) (importer : Importer)
    (a : ChatActivity) (fileName : CString) (source : Source)
    (h : ∀ content, source ≠ .complete content) :
    NoTrace filesDir a (importer.run filesDir may a fileName source) ↔
      FailsClean filesDir may a.storage fileName source := by
  by_cases hempty : fileName = .empty
  · rw [hempty, importer.run_empty]
    refine iff_of_true (noTrace_refl filesDir a) ?_
    cases source <;> simp [FailsClean]
  cases hwritable : a.storage.files.writable may
      (Path.components (Path.file filesDir.bytes fileName.bytes)) with
  | false =>
      rw [importer.run_of_copyFile hempty (copyFile_of_not_writable hwritable source)]
      refine iff_of_true (noTrace_refl filesDir a) ?_
      cases source <;> simp [FailsClean, hwritable]
  | true =>
      cases source with
      | throws =>
          rw [importer.run_of_copyFile hempty rfl]
          exact iff_of_true (noTrace_refl filesDir a) trivial
      | missing =>
          obtain ⟨row, hrow⟩ := importer.run_missing hempty hwritable
          refine iff_of_false (fun htrace => ?_) (by simp [FailsClean, hempty, hwritable])
          have hsame := htrace.rows
          rw [hrow] at hsame
          simp at hsame
      | complete content => exact absurd rfl (h content)
      | broken copied =>
          obtain ⟨files, hwrite⟩ := write_of_writable hwritable copied
          have hcopy : a.storage.copyFile filesDir may fileName (.broken copied) =
              (false, { a.storage with files := files }) := by
            simp [copyFile, Source.copied, hwrite]
          rw [importer.run_of_copyFile hempty hcopy]
          have hnode (d : List Bytes) : files.node d =
              if d = importTarget filesDir fileName then some (.file copied)
              else a.storage.files.node d :=
            FileTree.node_write hwrite d
          simp only [FailsClean, hempty, hwritable, false_or, reduceCtorEq]
          constructor
          · intro htrace
            by_cases hinside : dirOf filesDir <:+ importTarget filesDir fileName
            · have hkept := htrace.files _ hinside
              rw [hnode, if_pos rfl] at hkept
              exact .inr hkept.symm
            · exact .inl hinside
          · intro hplace
            refine ⟨fun d hd => ?_, rfl, rfl, rfl, rfl⟩
            rw [hnode]
            split
            · rename_i hsame
              subst hsame
              exact (hplace.resolve_left (not_not.mpr hd)).symm
            · rfl

theorem failedImport_broken :
    NoTrace appDir ⟨importedStorage, none⟩
      (Importer.copyAndSetNewModel.run appDir inDataDir ⟨importedStorage, none⟩ (.lit "../x")
        (.broken [2, 3])) :=
  (failedImport_iff appDir inDataDir .copyAndSetNewModel ⟨importedStorage, none⟩ (.lit "../x")
    (.broken [2, 3]) (fun _ => Source.noConfusion)).mpr
      (.inr (.inr (.inl (by decide +kernel))))

/-- The file of a model in use is cut short, and a missing stream leaves the row of an empty
file. -/
theorem failedImport_fails :
    ¬NoTrace appDir ⟨importedStorage, none⟩ (Importer.copyModelFile.run appDir inAppDir
        ⟨importedStorage, none⟩ (.lit "a.gguf") (.broken [])) ∧
      ¬NoTrace appDir ⟨appStorage, none⟩ (Importer.copyAndSetNewModel.run appDir inAppDir
        ⟨appStorage, none⟩ (.lit "b.gguf") .missing) := by
  constructor
  · intro htrace
    have hkept := htrace.files (importTarget appDir (.lit "a.gguf")) (by decide +kernel)
    exact absurd hkept (by decide +kernel)
  · intro htrace
    exact absurd htrace.rows (by decide +kernel)

end Storage

end SmollChat
