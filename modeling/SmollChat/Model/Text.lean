import Mathlib.Data.List.TakeWhile

/-! # Byte strings as the C++ code handles them -/

namespace SmollChat

abbrev Bytes := List UInt8

/-- The bytes of a literal of the source. -/
def ascii (s : String) : Bytes := s.toUTF8.data.toList

/-- A non-null `const char *`: the bytes before its terminator, none of which is NUL.
The same type serves for the Kotlin strings that cross JNI, whose modified UTF-8
never contains NUL. -/
structure CString where
  bytes : Bytes
  nul_free : 0 ∉ bytes
  deriving DecidableEq

namespace CString

@[ext] theorem ext {s t : CString} (h : s.bytes = t.bytes) : s = t := by
  cases s
  cases t
  simpa using h

/-- `c_str()`: what a C function sees of a `std::string`. -/
def cStr (b : Bytes) : CString where
  bytes := b.takeWhile (· ≠ 0)
  nul_free h := by simpa using List.mem_takeWhile_imp h

/-- A string literal. -/
def lit (s : String) : CString := cStr (ascii s)

/-- The first `n` bytes, as `strncpy` into a terminated buffer keeps them. -/
def take (n : ℕ) (s : CString) : CString where
  bytes := s.bytes.take n
  nul_free h := s.nul_free (List.mem_of_mem_take h)

def append (s t : CString) : CString where
  bytes := s.bytes ++ t.bytes
  nul_free h := (List.mem_append.mp h).elim s.nul_free t.nul_free

instance : Append CString := ⟨append⟩

def empty : CString := ⟨[], by simp⟩

/-- `strlen(s) == 0`, or `isEmpty()` on the Kotlin side. -/
def isEmpty (s : CString) : Bool := s.bytes.isEmpty

/-- The texts joined in order. -/
def concat (texts : List CString) : CString := texts.foldr (· ++ ·) empty

@[simp] theorem bytes_append (s t : CString) : (s ++ t).bytes = s.bytes ++ t.bytes := rfl

@[simp] theorem bytes_empty : empty.bytes = [] := rfl

@[simp] theorem bytes_take (n : ℕ) (s : CString) : (s.take n).bytes = s.bytes.take n := rfl

@[simp] theorem empty_append (s : CString) : empty ++ s = s := rfl

@[simp] theorem append_empty (s : CString) : s ++ empty = s := by ext1; simp

theorem append_assoc (s t u : CString) : s ++ t ++ u = s ++ (t ++ u) := by ext1; simp

@[simp] theorem isEmpty_iff {s : CString} : s.isEmpty = true ↔ s = empty := by
  constructor
  · intro h
    ext1
    simpa [isEmpty] using h
  · rintro rfl
    rfl

theorem isEmpty_eq_false_iff {s : CString} : s.isEmpty = false ↔ s ≠ empty := by
  rw [Bool.eq_false_iff, ne_eq, isEmpty_iff]

@[simp] theorem isEmpty_empty : empty.isEmpty = true := rfl

@[simp] theorem cStr_bytes (s : CString) : cStr s.bytes = s := by
  ext1
  simp only [cStr, List.takeWhile_eq_self_iff]
  intro b hb
  simpa using fun h : b = 0 => s.nul_free (h ▸ hb)

@[simp] theorem concat_nil : concat [] = empty := rfl

@[simp] theorem concat_cons (s : CString) (texts : List CString) :
    concat (s :: texts) = s ++ concat texts := rfl

@[simp] theorem concat_append (texts rest : List CString) :
    concat (texts ++ rest) = concat texts ++ concat rest := by
  induction texts with
  | nil => rfl
  | cons s texts ih => simp [ih, append_assoc]

end CString

end SmollChat
