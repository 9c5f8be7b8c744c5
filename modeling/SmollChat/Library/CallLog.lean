import Mathlib.Data.List.Basic

/-! # Cycles in a log of calls

A log records calls in order. A call belongs to an owner, goes to a place and may start or
end a cycle of its owner. -/

namespace CallLog

variable {α ι κ : Type*} (owner : α → ι) (place : α → κ) (starts ends : α → Prop)

/-- The owner has started a cycle at the place and has not ended it. -/
def Open (log : List α) (i : ι) (p : κ) : Prop :=
  ∃ pre c mid, log = pre ++ c :: mid ∧ owner c = i ∧ place c = p ∧ starts c ∧
    ∀ e ∈ mid, owner e = i → ¬ends e

/-- Each call goes to a place where no other owner's cycle is open. -/
def Separate (log : List α) : Prop :=
  ∀ pre c post, log = pre ++ c :: post →
    ∀ i, Open owner place starts ends pre i (place c) → i = owner c

variable {owner place starts ends} {log : List α} {c : α} {i : ι} {p : κ}

theorem not_open_nil : ¬Open owner place starts ends [] i p := by
  rintro ⟨pre, c, mid, hlog, -⟩
  simp at hlog

/-- After another call a cycle is open that the call has started, or that it has left open. -/
theorem open_append (h : Open owner place starts ends (log ++ [c]) i p) :
    (owner c = i ∧ place c = p ∧ starts c) ∨
      (Open owner place starts ends log i p ∧ (owner c = i → ¬ends c)) := by
  obtain ⟨pre, s, mid, hlog, howner, hplace, hstarts, hmid⟩ := h
  rcases List.eq_nil_or_concat mid with rfl | ⟨mid, e, rfl⟩
  · obtain ⟨-, heq⟩ := List.append_inj' hlog rfl
    obtain rfl : c = s := by simpa using heq
    exact .inl ⟨howner, hplace, hstarts⟩
  · have hsplit : log ++ [c] = (pre ++ s :: mid) ++ [e] := by simp [hlog]
    obtain ⟨rfl, heq⟩ := List.append_inj' hsplit rfl
    obtain rfl : c = e := by simpa using heq
    refine .inr ⟨⟨pre, s, mid, rfl, howner, hplace, hstarts, ?_⟩, ?_⟩
    · exact fun e he => hmid e (by simp [he])
    · exact hmid c (by simp)

/-- The owner's own ending call leaves nothing of it open. -/
theorem not_open_of_ends (howner : owner c = i) (hends : ends c) (hstarts : ¬starts c) :
    ¬Open owner place starts ends (log ++ [c]) i p := by
  intro hopen
  rcases open_append hopen with ⟨-, -, hs⟩ | ⟨-, hno⟩
  · exact hstarts hs
  · exact hno howner hends

theorem separate_nil : Separate owner place starts ends ([] : List α) := by
  intro pre c post hlog
  simp at hlog

/-- A call keeps the cycles separate if every cycle open at its place is its owner's. -/
theorem separate_append (h : Separate owner place starts ends log)
    (hopen : ∀ i, Open owner place starts ends log i (place c) → i = owner c) :
    Separate owner place starts ends (log ++ [c]) := by
  intro pre e post hlog
  rcases List.eq_nil_or_concat post with rfl | ⟨post, e', rfl⟩
  · obtain ⟨rfl, heq⟩ := List.append_inj' hlog rfl
    obtain rfl : c = e := by simpa using heq
    exact hopen
  · have hsplit : log ++ [c] = (pre ++ e :: post) ++ [e'] := by simp [hlog]
    obtain ⟨rfl, -⟩ := List.append_inj' hsplit rfl
    exact h pre e post rfl

end CallLog
