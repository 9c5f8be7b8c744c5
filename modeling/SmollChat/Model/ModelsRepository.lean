import SmollChat.Library.FileTree
import SmollChat.Model.Database

/-! # The model files and their rows: `ModelsRepository` and the imports

An import copies a file into `filesDir` and adds a row for it, `deleteModel` removes the
file of a row with the row, and the repository starts by deleting the rows without a file. -/

namespace SmollChat

/-! ## Path strings -/

namespace Path

/-- `/` -/
def separator : UInt8 := 47

/-- Removes each separator before another one or at the end. -/
def squeeze : Bytes → Bytes
  | [] => []
  | b :: bytes =>
      if b = separator ∧ (bytes.head?.all (· = separator)) = true then squeeze bytes
      else b :: squeeze bytes

/-- The normalization of `java.io.File` and of `java.nio.file.Path`. -/
def normalize (path : Bytes) : Bytes :=
  if path.head? = some separator ∧ squeeze path = [] then [separator] else squeeze path

/-- `File(parent, child).path`, for a parent that is a path already. -/
def file (parent child : Bytes) : Bytes :=
  let child := normalize child
  if child = [] ∨ child = [separator] then parent
  else if child.head? = some separator then
    if parent = [separator] then child else parent ++ child
  else if parent = [separator] then parent ++ child
  else parent ++ separator :: child

/-- `Paths.get(first, more).toString()` -/
def get (first more : Bytes) : Bytes :=
  normalize (if first = [] then more else if more = [] then first else first ++ separator :: more)

/-- A name in a path, as the system reads it. -/
def component (name : Bytes) : FileTree.Component Bytes :=
  if name = [46] then .here else if name = [46, 46] then .up else .down name

/-- The names in a path. -/
def names (path : Bytes) : List Bytes := (path.splitOn separator).filter (· ≠ [])

/-- What a path is to the system. The working directory of an app is the root. -/
def components (path : Bytes) : List (FileTree.Component Bytes) := (names path).map component

theorem mem_squeeze {path : Bytes} {b : UInt8} (h : b ∈ squeeze path) : b ∈ path := by
  induction path with
  | nil => exact h
  | cons c bytes ih =>
      simp only [squeeze] at h
      split at h
      · exact List.mem_cons_of_mem c (ih h)
      · rcases List.mem_cons.mp h with rfl | h
        · exact List.mem_cons_self
        · exact List.mem_cons_of_mem c (ih h)

theorem mem_normalize {path : Bytes} {b : UInt8} (h : b ∈ normalize path) : b ∈ path := by
  simp only [normalize] at h
  split at h
  · rename_i hroot
    rw [List.mem_singleton.mp h]
    exact List.mem_of_mem_head? hroot.1
  · exact mem_squeeze h

theorem nul_notMem_get {first more : Bytes} (hfirst : 0 ∉ first) (hmore : 0 ∉ more) :
    0 ∉ get first more := by
  intro h
  have hmem := mem_normalize h
  split at hmem
  · exact hmore hmem
  split at hmem
  · exact hfirst hmem
  · simp [hfirst, hmore, separator] at hmem

end Path

/-! ## Files, rows and preferences -/

/-- What the app keeps: the files, the boxes and two of its preferences. -/
structure Storage where
  files : FileTree Bytes Bytes
  db : Database
  selectedModelId : ℤ
  isFirstTimeSetup : Bool

/-- What `openInputStream` gives, and what `copyTo` reads of it. -/
inductive Source where
  | throws
  /-- null -/
  | missing
  | complete (content : Bytes)
  /-- an exception after some bytes -/
  | broken (copied : Bytes)

def Source.copied : Source → Bytes
  | .throws | .missing => []
  | .complete content | .broken content => content

namespace Storage

/-- `File(path).exists()` -/
def fileExists (s : Storage) (path : Bytes) : Bool :=
  path ≠ [] && s.files.contains (Path.components path)

variable (filesDir : CString) (may : List Bytes → Bool)

/-- `File(path).delete()`, which answers false where it cannot. -/
def deleteFile (s : Storage) (path : Bytes) : Storage :=
  { s with files := (s.files.delete may (Path.components path)).getD s.files }

def deleteModel (s : Storage) (id : ℤ) : Storage :=
  match s.db.getModel id with
  | none => s
  | some model =>
      let s := s.deleteFile may model.path.bytes
      { s with db := s.db.deleteModel model.id }

/-- The `init` block of `ModelsRepository`, which walks the list it has read first. -/
def openRepository (s : Storage) : Storage :=
  s.db.models.foldl
    (fun s model => if s.fileExists model.path.bytes then s else s.deleteModel may model.id) s

/-- `FileOutputStream(File(filesDir, fileName))` and the copying into it: whether they end
without an exception. -/
def copyFile (s : Storage) (fileName : CString) (source : Source) : Bool × Storage :=
  match source with
  | .throws => (false, s)
  | _ =>
      match s.files.write may (Path.components (Path.file filesDir.bytes fileName.bytes))
          source.copied with
      | none => (false, s)
      | some files =>
          (match source with
            | .broken _ => false
            | _ => true, { s with files := files })

/-- The path that an import stores with its row. -/
def modelPath (fileName : CString) : CString :=
  ⟨Path.get filesDir.bytes fileName.bytes, Path.nul_notMem_get filesDir.nul_free fileName.nul_free⟩

/-- What both imports do: copy the file and add its row. -/
def addModel (s : Storage) (fileName : CString) (source : Source) : Option ℕ × Storage :=
  match s.copyFile filesDir may fileName source with
  | (false, s) => (none, s)
  | (true, s) =>
      let (modelId, db) := s.db.addModel fileName (modelPath filesDir fileName)
      (some modelId, { s with db := db })

/-- `copyAndSetNewModel` up to the calls of the view model. -/
def copyAndSetNewModel (s : Storage) (fileName : CString) (source : Source) :
    Option ℕ × Storage :=
  if fileName.isEmpty then (none, s)
  else
    match s.addModel filesDir may fileName source with
    | (none, s) => (none, s)
    | (some modelId, s) => (some modelId, { s with selectedModelId := modelId })

def copyModelFile (s : Storage) (fileName : CString) (source : Source) : Option ℕ × Storage :=
  if fileName.isEmpty then (none, s)
  else
    match s.addModel filesDir may fileName source with
    | (none, s) => (none, s)
    | (some modelId, s) =>
        (some modelId, { s with selectedModelId := modelId, isFirstTimeSetup := false })

end Storage

/-! ## The chat screen's import -/

/-- The storage and the chat on the screen. -/
structure ChatActivity where
  storage : Storage
  currChat : Option Chat

namespace ChatActivity

variable (filesDir : CString) (may : List Bytes → Bool)

/-- `viewModel.updateChatLLM(modelId)`. Without a chat its `!!` throws, which the import
catches. -/
def updateChatLLM (a : ChatActivity) (modelId : ℤ) : ChatActivity :=
  match a.currChat with
  | none => a
  | some chat =>
      let chat := { chat with llmModelId := modelId }
      { storage := { a.storage with db := a.storage.db.updateChat chat }, currChat := some chat }

/-- `copyAndSetNewModel`. The `loadModel` at its end changes nothing that is kept here. -/
def copyAndSetNewModel (a : ChatActivity) (fileName : CString) (source : Source) :
    ChatActivity :=
  match a.storage.copyAndSetNewModel filesDir may fileName source with
  | (none, s) => { a with storage := s }
  | (some modelId, s) => updateChatLLM { a with storage := s } modelId

end ChatActivity

end SmollChat
