import Mathlib.Data.List.Find
import Mathlib.Data.List.Infix
import Mathlib.Data.List.Basic

/-! # Texts with markers

A lexer reads a marker as one symbol and any other letter as itself. Markers that begin
with a letter they do not contain again cannot overlap, so a text made of parts is read part
by part. -/

namespace Markers

/-- What a text is read as: markers, by their names, and single letters. -/
inductive Lexeme (α κ : Type*) where
  | mark (k : κ)
  | plain (a : α)
  deriving DecidableEq

def Lexeme.isMark {α κ : Type*} : Lexeme α κ → Bool
  | mark _ => true
  | plain _ => false

variable {α κ : Type*}

/-- All markers begin with `c`, which occurs nowhere else in them, and none begins another. -/
structure Apart (c : α) (markers : List (List α × κ)) : Prop where
  head : ∀ m ∈ markers, ∃ t, m.1 = c :: t ∧ c ∉ t
  unique : ∀ m ∈ markers, ∀ m' ∈ markers, m.1 <+: m'.1 → m = m'

variable {c : α} {markers : List (List α × κ)} {u xs : List α}

/-- A marker that begins in a part ends in it, if the next part begins with `c`. -/
theorem prefix_part (h : Apart c markers) {m : List α × κ} (hm : m ∈ markers) {y : α}
    (hxs : ∀ x ∈ xs.head?, x = c) : m.1 <+: y :: u ++ xs ↔ m.1 <+: y :: u := by
  constructor
  · rintro hfront
    rcases List.prefix_or_prefix_of_prefix hfront (List.prefix_append (y :: u) xs) with
      hle | ⟨r, hr⟩
    · exact hle
    · obtain ⟨t, ht, hc⟩ := h.head m hm
      rw [← hr, List.prefix_append_right_inj] at hfront
      cases r with
      | nil =>
          rw [← hr, List.append_nil]
      | cons x r =>
          obtain ⟨s, rfl⟩ := hfront
          have hx : x = c := hxs x rfl
          rw [← hr, List.cons_append, List.cons.injEq] at ht
          exact absurd (ht.2 ▸ List.mem_append_right u (hx ▸ List.mem_cons_self)) hc
  · exact fun hfront => hfront.trans (List.prefix_append _ _)

theorem countP_plain (u : List α) :
    (u.map (Lexeme.plain : α → Lexeme α κ)).countP Lexeme.isMark = 0 := by
  induction u with
  | nil => rfl
  | cons y u ih => exact (List.countP_cons_of_neg (by simp [Lexeme.isMark])).trans ih

/-- A list is split in one way only at its first element with a property. -/
theorem split_first_inj {p : α → Prop} {v r r' : List α} {a b : α} (hu : ∀ x ∈ u, ¬p x)
    (hv : ∀ x ∈ v, ¬p x) (ha : p a) (hb : p b) (heq : u ++ a :: r = v ++ b :: r') :
    u = v ∧ a = b ∧ r = r' := by
  induction u generalizing v with
  | nil =>
      cases v with
      | nil => simpa using heq
      | cons y v =>
          obtain ⟨rfl, -⟩ := List.cons.inj heq
          exact absurd ha (hv a List.mem_cons_self)
  | cons x u ih =>
      cases v with
      | nil =>
          obtain ⟨rfl, -⟩ := List.cons.inj heq
          exact absurd hb (hu x List.mem_cons_self)
      | cons y v =>
          obtain ⟨rfl, htail⟩ := List.cons.inj heq
          obtain ⟨rfl, hrest⟩ := ih (fun z hz => hu z (List.mem_cons_of_mem x hz))
            (fun z hz => hv z (List.mem_cons_of_mem x hz)) htail
          exact ⟨rfl, hrest⟩

theorem Lexeme.plain_injective : Function.Injective (plain : α → Lexeme α κ) := by
  intro a b h
  cases h
  rfl

/-- The letters before a mark are determined. -/
theorem plain_mark_inj {v : List α} {k k' : κ} {r r' : List (Lexeme α κ)}
    (heq : u.map .plain ++ .mark k :: r = v.map .plain ++ .mark k' :: r') :
    u = v ∧ k = k' ∧ r = r' := by
  have hplain (w : List α) : ∀ x ∈ w.map (Lexeme.plain : α → Lexeme α κ), ¬x.isMark = true := by
    simp [Lexeme.isMark]
  obtain ⟨huv, hk, hr⟩ := split_first_inj (hplain u) (hplain v) rfl rfl heq
  exact ⟨Lexeme.plain_injective.list_map huv, Lexeme.mark.inj hk, hr⟩

variable [DecidableEq α]

/-- Reading from the front, where `skip` letters belong to a marker already read. -/
def lexFrom (markers : List (List α × κ)) : ℕ → List α → List (Lexeme α κ)
  | _, [] => []
  | skip + 1, _ :: xs => lexFrom markers skip xs
  | 0, x :: xs =>
      match markers.find? fun m => m.1.isPrefixOf (x :: xs) with
      | some m => .mark m.2 :: lexFrom markers (m.1.length - 1) xs
      | none => .plain x :: lexFrom markers 0 xs

def lex (markers : List (List α × κ)) (xs : List α) : List (Lexeme α κ) := lexFrom markers 0 xs

/-! ## Reading one part -/

theorem lexFrom_skip (u xs : List α) : lexFrom markers u.length (u ++ xs) = lex markers xs := by
  induction u with
  | nil => rfl
  | cons y u ih => exact ih

theorem find?_marker (h : Apart c markers) {m : List α × κ} (hm : m ∈ markers) (xs : List α) :
    markers.find? (fun k => k.1.isPrefixOf (m.1 ++ xs)) = some m := by
  cases hfind : markers.find? fun k => k.1.isPrefixOf (m.1 ++ xs) with
  | none =>
      have hno := List.find?_eq_none.mp hfind m hm
      simp at hno
  | some k =>
      have hk : k.1 <+: m.1 ++ xs := by simpa using List.find?_some hfind
      have hmem := List.mem_of_find?_eq_some hfind
      rcases List.prefix_or_prefix_of_prefix hk (List.prefix_append m.1 xs) with hle | hle
      · rw [h.unique k hmem m hm hle]
      · rw [h.unique m hm k hmem hle]

theorem lex_marker (h : Apart c markers) {m : List α × κ} (hm : m ∈ markers) (xs : List α) :
    lex markers (m.1 ++ xs) = .mark m.2 :: lex markers xs := by
  have hfind := find?_marker h hm xs
  obtain ⟨t, ht, -⟩ := h.head m hm
  rw [ht, List.cons_append] at hfind
  rw [ht, List.cons_append, lex, lexFrom, hfind]
  simp only [ht, List.length_cons, Nat.add_sub_cancel, lexFrom_skip]

/-- Letters before which no marker can begin are read as themselves. -/
theorem lex_of_not_mem (h : Apart c markers) (hu : c ∉ u) (xs : List α) :
    lex markers (u ++ xs) = u.map .plain ++ lex markers xs := by
  induction u with
  | nil => rfl
  | cons y u ih =>
      rw [List.mem_cons, not_or] at hu
      have hfind : markers.find? (fun k => k.1.isPrefixOf (y :: (u ++ xs))) = none := by
        apply List.find?_eq_none.mpr
        intro m hm hfront
        obtain ⟨t, ht, -⟩ := h.head m hm
        rw [ht, List.isPrefixOf_iff_prefix, List.cons_prefix_cons] at hfront
        exact hu.1 hfront.1
      rw [List.cons_append, lex, lexFrom, hfind]
      exact congrArg _ (ih hu.2)

/-! ## Reading part by part -/

theorem lexFrom_append (h : Apart c markers) (hxs : ∀ x ∈ xs.head?, x = c) {skip : ℕ}
    (hskip : skip ≤ u.length) :
    lexFrom markers skip (u ++ xs) = lexFrom markers skip u ++ lex markers xs := by
  induction u generalizing skip with
  | nil =>
      obtain rfl : skip = 0 := Nat.le_zero.mp hskip
      rfl
  | cons y u ih =>
      cases skip with
      | succ skip => exact ih (Nat.le_of_succ_le_succ hskip)
      | zero =>
          have hfind : markers.find? (fun m => m.1.isPrefixOf (y :: (u ++ xs))) =
              markers.find? fun m => m.1.isPrefixOf (y :: u) := by
            apply List.find?_congr
            intro m hm
            rw [Bool.eq_iff_iff, List.isPrefixOf_iff_prefix, List.isPrefixOf_iff_prefix]
            exact prefix_part h hm hxs
          rw [List.cons_append, lexFrom, lexFrom, hfind]
          cases hmark : markers.find? fun m => m.1.isPrefixOf (y :: u) with
          | none => exact congrArg _ (ih (Nat.zero_le _))
          | some m =>
              have hm : m.1 <+: y :: u := by simpa using List.find?_some hmark
              have hlength := hm.length_le
              rw [List.length_cons] at hlength
              exact congrArg _ (ih (by omega))

theorem lex_append (h : Apart c markers) (hxs : ∀ x ∈ xs.head?, x = c) (u : List α) :
    lex markers (u ++ xs) = lex markers u ++ lex markers xs :=
  lexFrom_append h hxs (Nat.zero_le _)

/-! ## Texts without markers -/

/-- A marker somewhere in a text is read as one. -/
theorem countP_of_infix (h : Apart c markers) {m : List α × κ} (hm : m ∈ markers)
    (hpart : m.1 <:+: u) : 0 < (lex markers u).countP Lexeme.isMark := by
  obtain ⟨a, b, rfl⟩ := hpart
  obtain ⟨t, ht, -⟩ := h.head m hm
  have hhead : ∀ x ∈ (m.1 ++ b).head?, x = c := by
    rw [ht]
    rintro x hx
    exact (Option.mem_some_iff.mp hx).symm
  rw [List.append_assoc, lex_append h hhead, lex_marker h hm, List.countP_append,
    List.countP_cons_of_pos rfl]
  omega

theorem lex_of_free (hu : ∀ m ∈ markers, ¬m.1 <:+: u) : lex markers u = u.map .plain := by
  induction u with
  | nil => rfl
  | cons y u ih =>
      have hfind : markers.find? (fun m => m.1.isPrefixOf (y :: u)) = none := by
        apply List.find?_eq_none.mpr
        intro m hm hfront
        exact hu m hm (List.isPrefixOf_iff_prefix.mp hfront).isInfix
      rw [lex, lexFrom, hfind]
      exact congrArg _ (ih fun m hm hpart => hu m hm (hpart.trans (List.infix_cons_iff.mpr
        (.inr (List.infix_refl u)))))

/-- No mark is read exactly where the text contains no marker. -/
theorem countP_eq_zero_iff (h : Apart c markers) :
    (lex markers u).countP Lexeme.isMark = 0 ↔ ∀ m ∈ markers, ¬m.1 <:+: u := by
  constructor
  · intro hzero m hm hpart
    have hpos := countP_of_infix h hm hpart
    omega
  · intro hu
    rw [lex_of_free hu, countP_plain]

end Markers
