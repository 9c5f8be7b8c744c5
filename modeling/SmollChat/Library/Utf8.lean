import Mathlib.Data.List.Basic
import Mathlib.Data.List.Infix
import Mathlib.Algebra.Order.BigOperators.Group.List
import Mathlib.Algebra.Order.Group.Nat

/-! # UTF-8 texts in pieces

Decoding distributes over a concatenation that is cut between characters. A well-formed piece
inside a well-formed text is cut there. -/

namespace Utf8

variable {b u v w : List UInt8} {cs : List Char}

def encode (cs : List Char) : List UInt8 := cs.flatMap String.utf8EncodeChar

/-- The characters of a byte string, `none` where it is not well-formed. -/
def decode (b : List UInt8) : Option (List Char) := b.toByteArray.utf8Decode?.map Array.toList

def WellFormed (b : List UInt8) : Prop := (decode b).isSome = true

instance (b : List UInt8) : Decidable (WellFormed b) := inferInstanceAs (Decidable (_ = true))

/-! ## Encoding and decoding -/

@[simp] theorem encode_nil : encode [] = [] := rfl

@[simp] theorem encode_cons (c : Char) (cs : List Char) :
    encode (c :: cs) = String.utf8EncodeChar c ++ encode cs := rfl

@[simp] theorem encode_append (cs cs' : List Char) :
    encode (cs ++ cs') = encode cs ++ encode cs' := List.flatMap_append

theorem decode_encode (cs : List Char) : decode (encode cs) = some cs := by
  have hdecode : (encode cs).toByteArray.utf8Decode? = some cs.toArray :=
    List.utf8Decode?_utf8Encode
  rw [decode, hdecode]
  rfl

theorem decode_eq_some_iff : decode b = some cs ↔ b = encode cs := by
  constructor
  · intro h
    have hsome : b.toByteArray.utf8Decode?.isSome = true := by
      rw [← Option.isSome_map (f := Array.toList), ← decode, h]
      rfl
    obtain ⟨m, hm⟩ := ByteArray.isSome_utf8Decode?_iff.mp hsome
    have hb : b = encode m := List.toByteArray_inj.mp hm
    rw [hb, decode_encode, Option.some.injEq] at h
    rw [hb, h]
  · rintro rfl
    exact decode_encode cs

theorem wellFormed_iff : WellFormed b ↔ ∃ cs, b = encode cs := by
  simp only [WellFormed, Option.isSome_iff_exists, decode_eq_some_iff]

theorem wellFormed_encode (cs : List Char) : WellFormed (encode cs) :=
  wellFormed_iff.mpr ⟨cs, rfl⟩

@[simp] theorem wellFormed_nil : WellFormed [] := wellFormed_encode []

/-- A well-formed text is determined by its characters. -/
theorem eq_of_decode_eq (hu : WellFormed u) (h : decode u = decode v) : u = v := by
  obtain ⟨cs, rfl⟩ := wellFormed_iff.mp hu
  rw [decode_encode] at h
  exact (decode_eq_some_iff.mp h.symm).symm

/-! ## Cuts between characters -/

theorem utf8EncodeChar_append_inj {c d : Char}
    (h : String.utf8EncodeChar c ++ u = String.utf8EncodeChar d ++ v) : c = d ∧ u = v := by
  have hfirst := congrArg (fun b : List UInt8 => b.toByteArray.utf8DecodeChar? 0) h
  simp only [List.toByteArray_append, ByteArray.utf8DecodeChar?_utf8EncodeChar_append,
    Option.some.injEq] at hfirst
  subst hfirst
  exact ⟨rfl, List.append_cancel_left h⟩

/-- After whole characters a text goes on with whole characters. -/
theorem wellFormed_append_iff (hu : WellFormed u) : WellFormed (u ++ v) ↔ WellFormed v := by
  obtain ⟨cs, rfl⟩ := wellFormed_iff.mp hu
  constructor
  · intro h
    induction cs with
    | nil => exact h
    | cons c cs ih =>
        obtain ⟨ds, hds⟩ := wellFormed_iff.mp h
        cases ds with
        | nil => simp at hds
        | cons d ds =>
            rw [encode_cons, encode_cons, List.append_assoc] at hds
            obtain ⟨-, hrest⟩ := utf8EncodeChar_append_inj hds
            exact ih (wellFormed_encode cs) (hrest ▸ wellFormed_encode ds)
  · intro h
    obtain ⟨ds, rfl⟩ := wellFormed_iff.mp h
    rw [← encode_append]
    exact wellFormed_encode _

theorem decode_append (hu : WellFormed u) (hv : WellFormed v) :
    decode (u ++ v) = (decode u).bind fun cs => (decode v).map (cs ++ ·) := by
  obtain ⟨cs, rfl⟩ := wellFormed_iff.mp hu
  obtain ⟨ds, rfl⟩ := wellFormed_iff.mp hv
  rw [← encode_append, decode_encode, decode_encode, decode_encode]
  rfl

/-- A text starts with a byte that only starts characters. -/
theorem WellFormed.first {x : UInt8} (h : WellFormed (x :: v)) : x.IsUTF8FirstByte := by
  obtain ⟨ds, hds⟩ := wellFormed_iff.mp h
  cases ds with
  | nil => cases hds
  | cons d ds =>
      have hd := UInt8.isUTF8FirstByte_getElem_zero_utf8EncodeChar (c := d)
      cases henc : String.utf8EncodeChar d with
      | nil => exact absurd henc String.utf8EncodeChar_ne_nil
      | cons y t =>
          rw [encode_cons, henc, List.cons_append, List.cons.injEq] at hds
          simpa [henc, hds.1] using hd

/-- Within a character no byte starts one. -/
theorem not_first_within {c : Char} {x : UInt8} (hne : u ≠ [])
    (h : String.utf8EncodeChar c = u ++ x :: v) : ¬x.IsUTF8FirstByte := by
  intro hx
  have hlt : u.length < (String.utf8EncodeChar c).length := by simp [h]
  have hget : (String.utf8EncodeChar c)[u.length] = x := by simp [h]
  have hzero := UInt8.isUTF8FirstByte_getElem_utf8EncodeChar.mp (hget ▸ hx)
  exact hne (List.length_eq_zero_iff.mp hzero)

/-- What precedes a byte that starts characters is well-formed. -/
theorem WellFormed.before {x : UInt8} (h : WellFormed (u ++ x :: v)) (hx : x.IsUTF8FirstByte) :
    WellFormed u := by
  obtain ⟨cs, hcs⟩ := wellFormed_iff.mp h
  induction cs generalizing u with
  | nil => simp at hcs
  | cons c cs ih =>
      rw [encode_cons] at hcs
      rcases List.append_eq_append_iff.mp hcs with ⟨r, hc, hr⟩ | ⟨r, hu, hr⟩
      · cases r with
        | nil =>
            have hwhole : u = encode [c] := by simpa using hc.symm
            rw [hwhole]
            exact wellFormed_encode [c]
        | cons y r =>
            obtain rfl : x = y := (List.cons.inj hr).1
            by_cases hu : u = []
            · rw [hu]
              exact wellFormed_nil
            · exact absurd hx (not_first_within hu hc)
      · rw [hu, wellFormed_append_iff (by simpa using wellFormed_encode [c])]
        apply ih
        · rw [← hr]
          exact wellFormed_encode cs
        · exact hr.symm

/-- What precedes a well-formed piece of a text is well-formed. -/
theorem WellFormed.front (h : WellFormed (u ++ (v ++ w))) (hv : WellFormed v) (hne : v ≠ []) :
    WellFormed u := by
  obtain ⟨x, t, rfl⟩ := List.exists_cons_of_ne_nil hne
  exact WellFormed.before h hv.first

/-- A text may be cut before a byte exactly if the byte starts a character. -/
theorem wellFormed_take_iff (h : WellFormed b) (n : ℕ) :
    WellFormed (b.take n) ↔ ∀ x, b[n]? = some x → x.IsUTF8FirstByte := by
  constructor
  · intro hfront x hx
    obtain ⟨hn, rfl⟩ := List.getElem?_eq_some_iff.mp hx
    have hrest : WellFormed (b.drop n) := by
      rw [← List.take_append_drop n b] at h
      exact (wellFormed_append_iff hfront).mp h
    rw [List.drop_eq_getElem_cons hn] at hrest
    exact hrest.first
  · intro hfirst
    by_cases hn : n < b.length
    · rw [← List.take_append_drop n b, List.drop_eq_getElem_cons hn] at h
      exact h.before (hfirst b[n] (List.getElem?_eq_getElem hn))
    · rw [List.take_of_length_le (Nat.not_lt.mp hn)]
      exact h

/-! ## Pieces -/

/-- The characters of pieces that are decoded one by one. -/
def decodeEach : List (List UInt8) → Option (List Char)
  | [] => some []
  | t :: ts => (decode t).bind fun cs => (decodeEach ts).map (cs ++ ·)

theorem WellFormed.flatten {ts : List (List UInt8)} (h : ∀ t ∈ ts, WellFormed t) :
    WellFormed ts.flatten := by
  induction ts with
  | nil => exact wellFormed_nil
  | cons t ts ih =>
      rw [List.flatten_cons, wellFormed_append_iff (h t List.mem_cons_self)]
      exact ih fun t' ht' => h t' (List.mem_cons_of_mem t ht')

/-- Decoding well-formed pieces one by one is decoding the whole. -/
theorem decodeEach_eq {ts : List (List UInt8)} (h : ∀ t ∈ ts, WellFormed t) :
    decodeEach ts = decode ts.flatten := by
  induction ts with
  | nil => exact (decode_encode []).symm
  | cons t ts ih =>
      have hts : ∀ t' ∈ ts, WellFormed t' := fun t' ht' => h t' (List.mem_cons_of_mem t ht')
      rw [decodeEach, ih hts, List.flatten_cons,
        decode_append (h t List.mem_cons_self) (.flatten hts)]

/-- Pieces that are shortened from the end and still give the same text were not. -/
theorem eq_of_flatMap_eq {α : Type*} {f g : α → List UInt8} {xs : List α}
    (hfront : ∀ x ∈ xs, f x <+: g x) (heq : xs.flatMap f = xs.flatMap g) :
    ∀ x ∈ xs, f x = g x := by
  induction xs with
  | nil => simp
  | cons x xs ih =>
      have hrest : ∀ y ∈ xs, f y <+: g y := fun y hy => hfront y (List.mem_cons_of_mem x hy)
      obtain ⟨r, hr⟩ := hfront x List.mem_cons_self
      have hle : (xs.flatMap f).length ≤ (xs.flatMap g).length := by
        rw [List.length_flatMap, List.length_flatMap]
        exact List.sum_le_sum fun y hy => (hrest y hy).length_le
      rw [List.flatMap_cons, List.flatMap_cons, ← hr, List.append_assoc,
        List.append_cancel_left_eq] at heq
      have hlength := congrArg List.length heq
      rw [List.length_append] at hlength
      obtain rfl : r = [] := List.length_eq_zero_iff.mp (by omega)
      rw [List.nil_append] at heq
      rintro y hy
      rcases List.mem_cons.mp hy with rfl | hy
      · rw [← hr, List.append_nil]
      · exact ih hrest heq y hy

end Utf8
