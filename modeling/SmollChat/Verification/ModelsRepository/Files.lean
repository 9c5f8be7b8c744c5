import SmollChat.Library.Transition
import SmollChat.Model.ModelsRepository

/-! # Every model row has its file

The rows and the files are two stores. The start-up sweep and the imports keep each row's
file; a deletion takes the file of every row that names the same one. -/

namespace SmollChat

/-! ## Path strings -/

namespace Path

/-! The names in a path do not depend on how often it separates them, so that `file` and
`get` name the same file. -/

theorem names_append (s t : Bytes) : names (s ++ separator :: t) = names s ++ names t := by
  rw [names, List.splitOn_append_cons_self, List.filter_append]
  rfl

@[simp] theorem names_nil : names [] = [] := rfl

@[simp] theorem names_separator (bytes : Bytes) : names (separator :: bytes) = names bytes :=
  names_append [] bytes

theorem names_cons {b : UInt8} (hb : b ≠ separator) (bytes : Bytes) :
    names (b :: bytes) = if (bytes.head?.all (· = separator)) = true then [b] :: names bytes
      else (names bytes).modifyHead (b :: ·) := by
  cases bytes with
  | nil => simp [names, List.splitOn_cons_eq_if_modifyHead, hb]
  | cons c bytes =>
      obtain ⟨name, rest, hsplit⟩ :=
        List.exists_cons_of_ne_nil (List.splitOn_ne_nil separator bytes)
      by_cases hc : c = separator
      · simp [names, List.splitOn_cons_eq_if_modifyHead, hb, hc]
      · simp [names, List.splitOn_cons_eq_if_modifyHead, hb, hc, hsplit]

theorem head?_squeeze (path : Bytes) :
    (squeeze path).head?.all (· = separator) = path.head?.all (· = separator) := by
  induction path with
  | nil => rfl
  | cons b bytes ih =>
      simp only [squeeze]
      split
      · rename_i h
        rw [ih, h.2]
        simp [h.1]
      · rfl

theorem names_squeeze (path : Bytes) : names (squeeze path) = names path := by
  induction path with
  | nil => rfl
  | cons b bytes ih =>
      simp only [squeeze]
      by_cases hb : b = separator
      · subst hb
        split <;> simp [ih]
      · rw [if_neg (by simp [hb]), names_cons hb, names_cons hb, head?_squeeze, ih]

theorem names_normalize (path : Bytes) : names (normalize path) = names path := by
  simp only [normalize]
  split
  · rename_i h
    rw [← names_squeeze path, h.2]
    rfl
  · exact names_squeeze path

theorem names_file (parent child : Bytes) :
    names (file parent child) = names parent ++ names child := by
  rw [← names_normalize child]
  simp only [file]
  split
  · rename_i h
    rcases h with h | h <;> simp [h]
  split
  · rename_i h
    obtain ⟨rest, hrest⟩ := List.head?_eq_some_iff.mp h
    rw [hrest]
    split
    · rename_i hparent
      simp [hparent]
    · rw [names_append, names_separator]
  split
  · rename_i hparent
    simp [hparent]
  · exact names_append parent _

theorem names_get (first more : Bytes) : names (get first more) = names first ++ names more := by
  rw [get, names_normalize]
  split
  · rename_i h
    simp [h]
  split
  · rename_i h
    simp [h]
  · exact names_append first more

theorem components_file (parent child : Bytes) :
    components (file parent child) = components (get parent child) := by
  rw [components, components, names_file, names_get]

end Path

namespace Storage

variable {filesDir : CString} {may : List Bytes → Bool} {s s' : Storage}

/-! ## The operations -/

theorem mem_of_getModel {db : Database} {id : ℤ} {model : LLMModel}
    (h : db.getModel id = some model) : model ∈ db.models ∧ (model.id : ℤ) = id :=
  ⟨List.mem_of_find?_eq_some h, by simpa using List.find?_some h⟩

theorem fileExists_congr (h : s'.files = s.files) (path : Bytes) :
    s'.fileExists path = s.fileExists path := by
  simp only [fileExists, h]

theorem fileExists_of_deletable {path : Bytes}
    (h : s.files.deletable may (Path.components path) = true) : s.fileExists path = true := by
  obtain ⟨hcontains, -, hdown, -⟩ := FileTree.deletable_iff.mp h
  cases path with
  | nil => cases hdown
  | cons b path => simp [fileExists, hcontains]

theorem models_deleteModel (may : List Bytes → Bool) (s : Storage) (id : ℤ) :
    (s.deleteModel may id).db.models = s.db.models.filter fun model => (model.id : ℤ) ≠ id := by
  simp only [deleteModel]
  split
  · rename_i hnone
    simp only [Database.getModel, List.find?_eq_none] at hnone
    exact (List.filter_eq_self.mpr (by simpa using hnone)).symm
  · rename_i model hmodel
    rw [← (mem_of_getModel hmodel).2]
    rfl

theorem files_deleteModel {id : ℤ} {model : LLMModel} (h : s.db.getModel id = some model) :
    (s.deleteModel may id).files =
      (s.files.delete may (Path.components model.path.bytes)).getD s.files := by
  simp only [deleteModel, h, deleteFile]

theorem delete_isSome {path : List (FileTree.Component Bytes)} :
    (s.files.delete may path).isSome = s.files.deletable may path := by
  simp only [FileTree.delete]
  split <;> simp [*]

theorem files_deleteModel_of_not {id : ℤ} {model : LLMModel} (h : s.db.getModel id = some model)
    (hnot : s.files.deletable may (Path.components model.path.bytes) = false) :
    (s.deleteModel may id).files = s.files := by
  rw [files_deleteModel h]
  rw [← delete_isSome, Option.isSome_eq_false_iff, Option.isNone_iff_eq_none] at hnot
  rw [hnot]
  rfl

theorem addModel_eq_some {fileName : CString} {source : Source} {modelId : ℕ}
    (h : s.addModel filesDir may fileName source = (some modelId, s')) :
    s.files.write may (Path.components (modelPath filesDir fileName).bytes) source.copied =
        some s'.files ∧
      s'.db.models = s.db.models ++ [⟨modelId, fileName, modelPath filesDir fileName⟩] := by
  have hcomponents : Path.components (Path.file filesDir.bytes fileName.bytes) =
      Path.components (modelPath filesDir fileName).bytes := Path.components_file _ _
  simp only [addModel, copyFile, hcomponents] at h
  cases source with
  | throws => cases h
  | missing | complete _ | broken _ =>
      simp only at h
      cases hwrite : s.files.write may (Path.components (modelPath filesDir fileName).bytes)
          (Source.copied _) with
      | none => simp [hwrite] at h
      | some files =>
          simp only [hwrite] at h
          cases h <;> exact ⟨rfl, rfl⟩
/-! ## The start-up sweep -/

/-- The rows of the storage that have an id of the list are the list's. -/
def Covers (models : List LLMModel) (s : Storage) : Prop :=
  ∀ model ∈ models, ∀ row ∈ s.db.models, row.id = model.id → row = model

theorem Covers.self (hids : (s.db.models.map LLMModel.id).Nodup) : Covers s.db.models s :=
  fun _ hmodel _ hrow hid => List.inj_on_of_nodup_map hids hrow hmodel hid

theorem files_sweep (may : List Bytes → Bool) {model : LLMModel} {models : List LLMModel}
    (hcovers : Covers (model :: models) s) (hmissing : s.fileExists model.path.bytes = false) :
    (s.deleteModel may model.id).files = s.files := by
  cases hrow : s.db.getModel model.id with
  | none => simp [deleteModel, hrow]
  | some row =>
      obtain ⟨hmem, hid⟩ := mem_of_getModel hrow
      obtain rfl := hcovers model List.mem_cons_self row hmem (by omega)
      apply files_deleteModel_of_not hrow
      by_contra hdeletable
      rw [fileExists_of_deletable (by simpa using hdeletable)] at hmissing
      cases hmissing

/-- The rest of the sweep keeps the files, adds no row and leaves none of the listed rows
that have no file. -/
theorem sweep_keeps (may : List Bytes → Bool) (models : List LLMModel) (hcovers : Covers models s) :
    (models.foldl (fun s model => if s.fileExists model.path.bytes then s
        else s.deleteModel may model.id) s).files = s.files ∧
      ∀ row ∈ (models.foldl (fun s model => if s.fileExists model.path.bytes then s
          else s.deleteModel may model.id) s).db.models,
        row ∈ s.db.models ∧ (row ∈ models → s.fileExists row.path.bytes = true) := by
  induction models generalizing s with
  | nil => exact ⟨rfl, fun row hrow => ⟨hrow, fun h => by cases h⟩⟩
  | cons model models ih =>
      rw [List.foldl_cons]
      by_cases hexists : s.fileExists model.path.bytes = true
      · rw [if_pos hexists]
        obtain ⟨hfiles, hrows⟩ := ih fun m hm => hcovers m (List.mem_cons_of_mem model hm)
        refine ⟨hfiles, fun row hrow => ⟨(hrows row hrow).1, fun hmem => ?_⟩⟩
        rcases List.mem_cons.mp hmem with rfl | hmem
        · exact hexists
        · exact (hrows row hrow).2 hmem
      · have hfiles := files_sweep may hcovers (by simpa using hexists)
        have hmodels := models_deleteModel may s model.id
        have hcovers' : Covers models (s.deleteModel may model.id) := by
          intro m hm row hrow
          rw [hmodels] at hrow
          exact hcovers m (List.mem_cons_of_mem model hm) row (List.mem_filter.mp hrow).1
        rw [if_neg hexists]
        obtain ⟨hfiles', hrows⟩ := ih hcovers'
        refine ⟨hfiles'.trans hfiles, fun row hrow => ?_⟩
        obtain ⟨hmem, hlisted⟩ := hrows row hrow
        rw [hmodels] at hmem
        obtain ⟨hold, hid⟩ := List.mem_filter.mp hmem
        refine ⟨hold, fun hrow => ?_⟩
        rcases List.mem_cons.mp hrow with rfl | hrow
        · simp at hid
        · rw [← fileExists_congr hfiles]
          exact hlisted hrow

/-- After the sweep every row has its file. -/
theorem openRepository_keeps (hids : (s.db.models.map LLMModel.id).Nodup) :
    ∀ model ∈ (s.openRepository may).db.models,
      (s.openRepository may).fileExists model.path.bytes = true := by
  obtain ⟨hfiles, hrows⟩ := sweep_keeps may s.db.models (.self hids)
  intro model hmodel
  obtain ⟨hmem, hlisted⟩ := hrows model hmodel
  exact (fileExists_congr hfiles _).trans (hlisted hmem)

/-! ## Runs -/

inductive Call where
  | copyAndSetNewModel (fileName : CString) (source : Source)
  | copyModelFile (fileName : CString) (source : Source)
  | deleteModel (id : ℤ)

/-- The storage, with the path of the row that the last call has deleted. -/
structure Served where
  storage : Storage
  deleted : Option CString

def Served.step (filesDir : CString) (may : List Bytes → Bool) (r : Served) :
    Call → Option Served
  | .copyAndSetNewModel fileName source =>
      match r.storage.copyAndSetNewModel filesDir may fileName source with
      | (none, _) => none
      | (some _, s) => some ⟨s, none⟩
  | .copyModelFile fileName source =>
      match r.storage.copyModelFile filesDir may fileName source with
      | (none, _) => none
      | (some _, s) => some ⟨s, none⟩
  | .deleteModel id =>
      some ⟨r.storage.deleteModel may id, (r.storage.db.getModel id).map LLMModel.path⟩

/-- Each row has its file, and the row deleted last has none. -/
def Served.KeepsFiles (r : Served) : Prop :=
  (∀ model ∈ r.storage.db.models, r.storage.fileExists model.path.bytes = true) ∧
    ∀ path ∈ r.deleted, r.storage.fileExists path.bytes = false

/-- Throughout the calls each row has its file, and a deletion removes the file of its row
only. -/
def KeepsFilesAlong (filesDir : CString) (may : List Bytes → Bool) (r : Served)
    (calls : List Call) : Prop :=
  ∀ pre u, pre <+: calls → Transition.exec (Served.step filesDir may) r pre = some u →
    u.KeepsFiles

/-- The row that is deleted names a file that can be removed and that no other row uses. -/
def DeletesOwnFile (may : List Bytes → Bool) (r : Served) : Call → Prop
  | .deleteModel id => ∀ model ∈ r.storage.db.getModel id,
      r.storage.files.deletable may (Path.components model.path.bytes) = true ∧
        ∀ row ∈ r.storage.db.models, (row.id : ℤ) ≠ id →
          FileTree.target (Path.components model.path.bytes) ∉
            FileTree.uses (Path.components row.path.bytes)
  | _ => True

instance (may : List Bytes → Bool) (r : Served) (call : Call) :
    Decidable (DeletesOwnFile may r call) := by
  rcases call with _ | _ <;> dsimp only [DeletesOwnFile] <;> infer_instance

/-- What a successful import does to the files and the rows. -/
structure Imports (filesDir : CString) (may : List Bytes → Bool) (s s' : Storage)
    (fileName : CString) (content : Bytes) : Prop where
  write : s.files.write may (Path.components (modelPath filesDir fileName).bytes) content =
    some s'.files
  row : ∃ modelId, s'.db.models = s.db.models ++ [⟨modelId, fileName, modelPath filesDir fileName⟩]

theorem copyAndSetNewModel_imports {fileName : CString} {source : Source} {modelId : ℕ}
    (h : s.copyAndSetNewModel filesDir may fileName source = (some modelId, s')) :
    Imports filesDir may s s' fileName source.copied := by
  simp only [copyAndSetNewModel] at h
  split at h
  · cases h
  split at h
  · cases h
  · rename_i hadd
    obtain ⟨hwrite, hrow⟩ := addModel_eq_some hadd
    cases h
    exact ⟨hwrite, _, hrow⟩

theorem copyModelFile_imports {fileName : CString} {source : Source} {modelId : ℕ}
    (h : s.copyModelFile filesDir may fileName source = (some modelId, s')) :
    Imports filesDir may s s' fileName source.copied := by
  simp only [copyModelFile] at h
  split at h
  · cases h
  split at h
  · cases h
  · rename_i hadd
    obtain ⟨hwrite, hrow⟩ := addModel_eq_some hadd
    cases h
    exact ⟨hwrite, _, hrow⟩

/-- An import keeps every row's file and writes that of its own row. -/
theorem Imports.keepsFiles {fileName : CString} {content : Bytes}
    (h : Imports filesDir may s s' fileName content)
    (hfiles : ∀ model ∈ s.db.models, s.fileExists model.path.bytes = true) :
    ∀ model ∈ s'.db.models, s'.fileExists model.path.bytes = true := by
  obtain ⟨modelId, hrow⟩ := h.row
  intro model hmodel
  rw [hrow] at hmodel
  rcases List.mem_append.mp hmodel with hold | hnew
  · have hexists := hfiles model hold
    simp only [fileExists, Bool.and_eq_true] at hexists ⊢
    exact ⟨hexists.1, FileTree.contains_write h.write hexists.2⟩
  · rw [List.mem_singleton.mp hnew]
    have hne := (FileTree.writable_iff.mp (FileTree.writable_of_write h.write)).2.2.1
    have hpath : (modelPath filesDir fileName).bytes ≠ [] := by
      intro hnil
      rw [hnil] at hne
      exact hne rfl
    simp [fileExists, hpath, FileTree.contains_write_self h.write]

/-- A deletion keeps the other rows' files, and removes its own, exactly if it is of a file
that can be removed and that no other row uses. -/
theorem deleteModel_keeps_iff {id : ℤ}
    (hfiles : ∀ model ∈ s.db.models, s.fileExists model.path.bytes = true) :
    Served.KeepsFiles ⟨s.deleteModel may id, (s.db.getModel id).map LLMModel.path⟩ ↔
      DeletesOwnFile may ⟨s, none⟩ (.deleteModel id) := by
  simp only [Served.KeepsFiles, DeletesOwnFile, models_deleteModel]
  cases hmodel : s.db.getModel id with
  | none =>
      have hsame : s.deleteModel may id = s := by simp [deleteModel, hmodel]
      rw [hsame]
      refine iff_of_true ⟨?_, by simp⟩ (by simp)
      exact fun row hrow => hfiles row (List.mem_filter.mp hrow).1
  | some model =>
      have hmem := (mem_of_getModel hmodel).1
      cases hdeletable : s.files.deletable may (Path.components model.path.bytes) with
      | false =>
          have hsame := files_deleteModel_of_not hmodel hdeletable
          refine iff_of_false ?_ (by simp [hdeletable])
          rintro ⟨-, hgone⟩
          have hgone := hgone model.path rfl
          rw [fileExists_congr hsame, hfiles model hmem] at hgone
          cases hgone
      | true =>
          obtain ⟨t, ht⟩ := Option.isSome_iff_exists.mp (delete_isSome.trans hdeletable)
          have hafter : (s.deleteModel may id).files = t := by
            rw [files_deleteModel hmodel, ht]
            rfl
          have hexists (path : Bytes) : (s.deleteModel may id).fileExists path = true ↔
              s.fileExists path = true ∧ FileTree.target (Path.components model.path.bytes) ∉
                FileTree.uses (Path.components path) := by
            simp [fileExists, hafter, FileTree.contains_delete ht, and_assoc]
          constructor
          · rintro ⟨hrows, -⟩ m hm
            obtain rfl := Option.some.inj hm
            refine ⟨hdeletable, fun row hrow hid => ?_⟩
            have hkept := hrows row (List.mem_filter.mpr ⟨hrow, by simpa using hid⟩)
            exact ((hexists _).mp hkept).2
          · intro hown
            obtain ⟨-, hothers⟩ := hown model rfl
            constructor
            · intro row hrow
              obtain ⟨hold, hid⟩ := List.mem_filter.mp hrow
              exact (hexists _).mpr ⟨hfiles row hold, hothers row hold (by simpa using hid)⟩
            · intro path hpath
              obtain rfl := Option.some.inj hpath
              by_contra hkept
              exact ((hexists _).mp (by simpa using hkept)).2 (FileTree.target_mem_uses _)

/-- In a state in which every row has its file, the next call keeps that, and a deletion
removes the file of its row only, exactly if it deletes a file of its own. -/
theorem step_keeps_iff {r r' : Served} (h : r.KeepsFiles) {call : Call}
    (hstep : r.step filesDir may call = some r') :
    r'.KeepsFiles ↔ DeletesOwnFile may r call := by
  cases call with
  | copyAndSetNewModel fileName source =>
      refine iff_of_true ?_ trivial
      simp only [Served.step] at hstep
      split at hstep
      · cases hstep
      · rename_i himport
        obtain rfl := Option.some.inj hstep
        exact ⟨(copyAndSetNewModel_imports himport).keepsFiles h.1, by simp⟩
  | copyModelFile fileName source =>
      refine iff_of_true ?_ trivial
      simp only [Served.step] at hstep
      split at hstep
      · cases hstep
      · rename_i himport
        obtain rfl := Option.some.inj hstep
        exact ⟨(copyModelFile_imports himport).keepsFiles h.1, by simp⟩
  | deleteModel id =>
      obtain rfl := Option.some.inj hstep
      exact deleteModel_keeps_iff h.1

/-- From every storage on, after the sweep and throughout every sequence of successful
imports and deletions, each row has its file and a deletion removes the file of its row only,
exactly if each deletion is of a file of its own. -/
theorem keepsFiles_iff (filesDir : CString) (may : List Bytes → Bool) (s : Storage)
    (hids : (s.db.models.map LLMModel.id).Nodup) {calls : List Call} {r : Served}
    (hcalls : Transition.exec (Served.step filesDir may) ⟨s.openRepository may, none⟩ calls =
      some r) :
    KeepsFilesAlong filesDir may ⟨s.openRepository may, none⟩ calls ↔
      Transition.AllowedAlong (Served.step filesDir may) (DeletesOwnFile may)
        ⟨s.openRepository may, none⟩ calls := by
  have hstart : Served.KeepsFiles ⟨s.openRepository may, none⟩ :=
    ⟨openRepository_keeps hids, by simp⟩
  exact Transition.allowedAlong_iff (fun _ _ _ _ _ => trivial)
    (fun _ _ _ _ hgood hstep => step_keeps_iff hgood hstep) trivial hstart hcalls

def appDir : CString := .lit "/data/files"

def inAppDir (c : List Bytes) : Bool := c.tail = [ascii "files", ascii "data"]

def appFiles : FileTree Bytes Bytes :=
  .ofNodes [⟨[], .dir⟩, ⟨[ascii "data"], .dir⟩, ⟨[ascii "files", ascii "data"], .dir⟩].toAList
    (by decide +kernel) (by decide +kernel)

def appStorage : Storage :=
  ⟨appFiles, ⟨[], [], [⟨1, .lit "lost", .lit "/data/files/lost"⟩], 1, 1, 2⟩, -1, true⟩

def twoNames : List Call :=
  [.copyModelFile (.lit "a.gguf") (.complete [1]), .copyAndSetNewModel (.lit "b.gguf") .missing,
    .deleteModel 2]

theorem keepsFiles_twoNames :
    KeepsFilesAlong appDir inAppDir ⟨appStorage.openRepository inAppDir, none⟩ twoNames := by
  have hrun : ∃ r, Transition.exec (Served.step appDir inAppDir)
      ⟨appStorage.openRepository inAppDir, none⟩ twoNames = some r ∧
      r.storage.db.models.length = 1 := Transition.exec_of_decide (by decide +kernel)
  obtain ⟨r, hr, -⟩ := hrun
  exact (keepsFiles_iff appDir inAppDir appStorage (by decide) hr).mpr (by decide +kernel)

def sameName : List Call :=
  [.copyModelFile (.lit "a.gguf") (.complete [1]),
    .copyAndSetNewModel (.lit "a.gguf") (.complete [2]), .deleteModel 2]

theorem keepsFiles_sameName :
    ∃ r, Transition.exec (Served.step appDir inAppDir)
      ⟨appStorage.openRepository inAppDir, none⟩ sameName = some r ∧
      ∃ model ∈ r.storage.db.models, r.storage.fileExists model.path.bytes = false :=
  Transition.exec_of_decide (by decide +kernel)

end Storage

end SmollChat
