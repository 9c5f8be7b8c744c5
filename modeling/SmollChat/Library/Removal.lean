import SmollChat.Library.StdString

/-! # Removal loops

One loop for each marker erases its occurrences until none is left, and the markers take
their turns in order. An erasure joins the text around it, so a later loop can form a marker
whose own loop is over. -/

namespace Removal

open StdString

variable {α : Type*} [DecidableEq α]

/-- `for (t : markers) while ((pos = s.find(t)) != npos) s.erase(pos, t.length());` -/
def removeEach (markers : List (List α)) (s : List α) : List α :=
  markers.foldl (fun s t => eraseEach t s.length s) s

theorem removeEach_cons (t : List α) (markers : List (List α)) (s : List α) :
    removeEach (t :: markers) s = removeEach markers (eraseEach t s.length s) := rfl

theorem removeEach_of_free {markers : List (List α)} {s : List α}
    (h : ∀ t ∈ markers, ¬t <:+: s) : removeEach markers s = s := by
  induction markers with
  | nil => rfl
  | cons t markers ih =>
      have hnone : find t s = none := find_eq_none_iff.mpr (h t List.mem_cons_self)
      rw [removeEach_cons, eraseEach_of_find_none hnone]
      exact ih fun t' ht' => h t' (List.mem_cons_of_mem t ht')

theorem removeEach_subset (markers : List (List α)) (s : List α) : removeEach markers s ⊆ s := by
  induction markers generalizing s with
  | nil => exact List.Subset.refl s
  | cons t markers ih => exact List.Subset.trans (ih _) (eraseEach_subset t s.length s)

/-- The part of a text before a letter that no marker contains is treated as if it stood
alone. -/
theorem removeEach_append_cons {markers : List (List α)} {z : α}
    (h : ∀ t ∈ markers, t ≠ [] ∧ z ∉ t) (w v : List α) :
    ∃ v', removeEach markers (w ++ z :: v) = removeEach markers w ++ z :: v' := by
  induction markers generalizing w v with
  | nil => exact ⟨v, rfl⟩
  | cons t markers ih =>
      obtain ⟨hne, hz⟩ := h t List.mem_cons_self
      obtain ⟨v', hv'⟩ := eraseEach_append_cons hz (w ++ z :: v).length w v
      have hrounds : eraseEach t (w ++ z :: v).length w = eraseEach t w.length w :=
        eraseEach_rounds hne (by simp) le_rfl
      rw [removeEach_cons, removeEach_cons, hv', hrounds]
      exact ih (fun t' ht' => h t' (List.mem_cons_of_mem t ht')) _ _

/-! ## Rounds -/

/-- The text between two rounds, the markers whose loops are over and those whose loops are
still to come, the current one first. -/
structure State (α : Type*) where
  done : List (List α)
  todo : List (List α)
  text : List α

/-- A round of the current loop, or the end of that loop. -/
def step : State α → Option (State α)
  | ⟨_, [], _⟩ => none
  | ⟨done, t :: todo, s⟩ =>
      match find t s with
      | some pos => some ⟨done, t :: todo, erase s pos t.length⟩
      | none => some ⟨done ++ [t], todo, s⟩

inductive Reaches : State α → State α → Prop where
  | refl (st) : Reaches st st
  | step {st st' st''} : step st = some st' → Reaches st' st'' → Reaches st st''

variable {markers done todo : List (List α)} {s t : List α} {st st' : State α}

theorem Reaches.trans {st''} (h : Reaches st st') (h' : Reaches st' st'') : Reaches st st'' := by
  induction h with
  | refl => exact h'
  | step hstep _ ih => exact .step hstep (ih h')

/-- The rounds are determined, so all lead to the one state where nothing is left to do. -/
theorem Reaches.last (h : Reaches st st') {last : State α} (hlast : Reaches st last)
    (hend : Removal.step last = none) : Reaches st' last := by
  induction h with
  | refl => exact hlast
  | step hstep _ ih =>
      cases hlast with
      | refl =>
          rw [hend] at hstep
          cases hstep
      | step hstep' hrest =>
          obtain rfl := Option.some.inj (hstep.symm.trans hstep')
          exact ih hrest

/-- The loop of a marker. -/
theorem reaches_eraseEach (done todo : List (List α)) (rounds : ℕ) (t s : List α) :
    Reaches ⟨done, t :: todo, s⟩ ⟨done, t :: todo, eraseEach t rounds s⟩ := by
  induction rounds generalizing s with
  | zero => exact .refl _
  | succ rounds ih =>
      rw [eraseEach]
      split
      · exact .refl _
      · rename_i pos hfind
        refine .step ?_ (ih _)
        simp only [step, hfind]

/-- The loops end, with the text that `removeEach` returns. -/
theorem reaches_removeEach (hne : ∀ t ∈ todo, t ≠ []) (done : List (List α)) (s : List α) :
    Reaches ⟨done, todo, s⟩ ⟨done ++ todo, [], removeEach todo s⟩ := by
  induction todo generalizing done s with
  | nil =>
      rw [List.append_nil]
      exact .refl _
  | cons t todo ih =>
      have hloop := reaches_eraseEach done todo s.length t s
      have hnone : find t (eraseEach t s.length s) = none :=
        find_eraseEach (hne t List.mem_cons_self) le_rfl
      have hnext : step ⟨done, t :: todo, eraseEach t s.length s⟩ =
          some ⟨done ++ [t], todo, eraseEach t s.length s⟩ := by
        simp only [step, hnone]
      have hrest := ih (fun t' ht' => hne t' (List.mem_cons_of_mem t ht')) (done ++ [t])
        (eraseEach t s.length s)
      rw [List.append_assoc] at hrest
      exact hloop.trans (.step hnext hrest)

/-- The one state where nothing is left to do has that text. -/
theorem Reaches.text_eq (hne : ∀ t ∈ markers, t ≠ []) (h : Reaches ⟨[], markers, s⟩ st)
    (hend : st.todo = []) : st.text = removeEach markers s := by
  have hlast := h.last (reaches_removeEach hne [] s) rfl
  obtain ⟨done, todo, text⟩ := st
  obtain rfl : todo = [] := hend
  cases hlast with
  | refl => rfl
  | step hstep => cases hstep

/-- What holds of all states, and something else of the last one. -/
theorem forall_reaches_iff (hne : ∀ t ∈ markers, t ≠ []) {P : State α → Prop}
    {Q : List α → Prop} :
    (∀ st, Reaches ⟨[], markers, s⟩ st → P st ∧ (st.todo = [] → Q st.text)) ↔
      (∀ st, Reaches ⟨[], markers, s⟩ st → P st) ∧ Q (removeEach markers s) := by
  constructor
  · intro h
    exact ⟨fun st hst => (h st hst).1, (h _ (reaches_removeEach hne [] s)).2 rfl⟩
  · rintro ⟨hP, hQ⟩ st hst
    refine ⟨hP st hst, fun hend => ?_⟩
    rw [hst.text_eq hne hend]
    exact hQ

/-! ## Joins -/

/-- `m` stands across the end of `u` and the beginning of `v`. -/
def Across (m u v : List α) : Prop :=
  ∃ l₁ l₂, l₁ ≠ [] ∧ l₂ ≠ [] ∧ m = l₁ ++ l₂ ∧ l₁ <:+ u ∧ l₂ <+: v

/-- The next erasure joins the text before it and the text after it into a marker whose loop
is over, and none of the loops to come is for a part of that marker. -/
def Joins : State α → Prop
  | ⟨_, [], _⟩ => False
  | ⟨done, t :: todo, s⟩ => ∃ pos, find t s = some pos ∧
      ∃ m ∈ done, (∀ t' ∈ t :: todo, ¬t' <:+: m) ∧ Across m (s.take pos) (s.drop (pos + t.length))

/-- Each marker begins with `c`, which occurs nowhere else in it, and is not the front of a
marker after it. -/
structure Ordered (c : α) (markers : List (List α)) : Prop where
  head : ∀ t ∈ markers, ∃ u, t = c :: u ∧ c ∉ u
  front : markers.Pairwise fun m t => ¬m <+: t

/-- The state after a round: an occurrence erased, or a loop over. -/
inductive Round : State α → State α → Prop where
  | erased {done todo : List (List α)} {t a b : List α} : find t (a ++ t ++ b) = some a.length →
      Round ⟨done, t :: todo, a ++ t ++ b⟩ ⟨done, t :: todo, a ++ b⟩
  | finished {done todo : List (List α)} {t s : List α} : ¬t <:+: s →
      Round ⟨done, t :: todo, s⟩ ⟨done ++ [t], todo, s⟩

theorem step_round (h : step st = some st') : Round st st' := by
  obtain ⟨done, todo, s⟩ := st
  cases todo with
  | nil => cases h
  | cons t todo =>
      cases hfind : find t s with
      | none =>
          simp only [step, hfind, Option.some.injEq] at h
          subst h
          exact .finished (find_eq_none_iff.mp hfind)
      | some pos =>
          obtain ⟨a, b, rfl, rfl⟩ := find_eq_some hfind
          simp only [step, hfind, erase_occurrence, Option.some.injEq] at h
          subst h
          exact .erased hfind

theorem Round.all_markers (h : Round st st') : st'.done ++ st'.todo = st.done ++ st.todo := by
  cases h with
  | erased => rfl
  | finished => exact List.append_assoc _ _ _

theorem Reaches.all_markers (h : Reaches st st') :
    st'.done ++ st'.todo = st.done ++ st.todo := by
  induction h with
  | refl => rfl
  | step hstep _ ih => exact ih.trans (step_round hstep).all_markers

theorem joins_erased_iff {a b : List α} (h : find t (a ++ t ++ b) = some a.length) :
    Joins ⟨done, t :: todo, a ++ t ++ b⟩ ↔
      ∃ m ∈ done, (∀ t' ∈ t :: todo, ¬t' <:+: m) ∧ Across m a b := by
  have htake : (a ++ t ++ b).take a.length = a := by simp
  have hdrop : (a ++ t ++ b).drop (a.length + t.length) = b := by simp
  simp only [Joins, h, Option.some.injEq, exists_eq_left', htake, hdrop]

/-! ## Texts without markers -/

/-- A marker whose loop is over occurs only around one still to come. -/
def Clear (st : State α) : Prop := ∀ m ∈ st.done, m <:+: st.text → ∃ t ∈ st.todo, t <:+: m

/-- `m` occurs, its loop is over, and no loop to come is for a part of it. -/
structure Stuck (m : List α) (st : State α) : Prop where
  finished : m ∈ st.done
  occurs : m <:+: st.text
  apart : ∀ t ∈ st.todo, ¬t <:+: m

theorem Clear.step (h : Clear st) (hjoins : ¬Joins st) (hstep : step st = some st') :
    Clear st' := by
  intro m hm hoccurs
  cases step_round hstep with
  | erased hfind =>
      rw [joins_erased_iff hfind] at hjoins
      rcases List.infix_append_iff_ne_nil.mp hoccurs with ha | hb | hacross
      · exact h m hm (ha.trans (List.infix_append_left.trans List.infix_append_left))
      · exact h m hm (hb.trans List.infix_append_right)
      · by_contra hnone
        refine hjoins ⟨m, hm, ?_, hacross⟩
        simpa using hnone
  | finished hfree =>
      rcases List.mem_append.mp hm with hm | hm
      · obtain ⟨t', ht', hpart⟩ := h m hm hoccurs
        rcases List.mem_cons.mp ht' with rfl | ht'
        · exact absurd (hpart.trans hoccurs) hfree
        · exact ⟨t', ht', hpart⟩
      · obtain rfl := List.mem_singleton.mp hm
        exact absurd hoccurs hfree

omit [DecidableEq α] in
/-- Erasing a marker breaks no other one: two that begin with the same letter and contain it
once overlap only if one is the front of the other. -/
theorem infix_of_erased {c : α} {m a b : List α} (ht : ∃ u, t = c :: u ∧ c ∉ u)
    (hm : ∃ u, m = c :: u ∧ c ∉ u) (hpart : ¬t <:+: m) (hfront : ¬m <+: t)
    (h : m <:+: a ++ t ++ b) : m <:+: a ++ b := by
  obtain ⟨u, rfl, hu⟩ := ht
  obtain ⟨v, rfl, hv⟩ := hm
  -- what stands behind the first letter of a marker cannot begin with `c`
  have hinside {l₁ l₂ r : List α} (hne : l₁ ≠ []) (hne' : l₂ ≠ []) (hsplit : c :: v = l₁ ++ l₂)
      (hr : l₂ <+: c :: r) : False := by
    cases l₁ with
    | nil => exact hne rfl
    | cons x l₁ =>
        cases l₂ with
        | nil => exact hne' rfl
        | cons y l₂ =>
            obtain ⟨rfl, -⟩ := List.cons_prefix_cons.mp hr
            obtain ⟨-, rfl⟩ := List.cons.inj hsplit
            exact hv (List.mem_append_right l₁ List.mem_cons_self)
  rw [List.append_assoc] at h
  rcases List.infix_append_iff_ne_nil.mp h with ha | htb | ⟨l₁, l₂, hne, hne', hsplit, -, hl₂⟩
  · exact ha.trans List.infix_append_left
  · rcases List.infix_append_iff_ne_nil.mp htb with hin | hb | ⟨l₁, l₂, hne, hne', hsplit, hl₁, -⟩
    · rcases List.infix_cons_iff.mp hin with hin | hin
      · exact absurd hin hfront
      · exact absurd (hin.subset List.mem_cons_self) hu
    · exact hb.trans List.infix_append_right
    · rcases List.suffix_cons_iff.mp hl₁ with rfl | hl₁
      · exact absurd (hsplit ▸ List.infix_append_left) hpart
      · cases l₁ with
        | nil => exact absurd rfl hne
        | cons x l₁ =>
            obtain ⟨rfl, -⟩ := List.cons.inj hsplit
            exact absurd (hl₁.subset List.mem_cons_self) hu
  · exact (hinside hne hne' hsplit hl₂).elim

theorem Stuck.step {c : α} {m : List α} (h : Stuck m st) (ho : Ordered c (st.done ++ st.todo))
    (hstep : Removal.step st = some st') : Stuck m st' := by
  obtain ⟨hover, hoccurs, hapart⟩ := h
  cases step_round hstep with
  | @erased done todo t a b hfind =>
      refine ⟨hover, ?_, hapart⟩
      have ht : t ∈ t :: todo := List.mem_cons_self
      exact infix_of_erased (ho.head t (List.mem_append_right done ht))
        (ho.head m (List.mem_append_left _ hover)) (hapart t ht)
        ((List.pairwise_append.mp ho.front).2.2 m hover t ht) hoccurs
  | finished =>
      exact ⟨List.mem_append_left _ hover, hoccurs,
        fun t' ht' => hapart t' (List.mem_cons_of_mem _ ht')⟩

theorem Joins.stuck (h : Joins st) (hstep : Removal.step st = some st') : ∃ m, Stuck m st' := by
  cases step_round hstep with
  | erased hfind =>
      obtain ⟨m, hm, hapart, hacross⟩ := (joins_erased_iff hfind).mp h
      exact ⟨m, hm, List.infix_append_iff_ne_nil.mpr (.inr (.inr hacross)), hapart⟩
  | @finished done todo t s hfree =>
      obtain ⟨pos, hfind, -⟩ := h
      rw [find_eq_none_iff.mpr hfree] at hfind
      cases hfind

theorem Stuck.reaches {c : α} {m : List α} (h : Stuck m st) (ho : Ordered c (st.done ++ st.todo))
    (hreach : Reaches st st') : Stuck m st' := by
  induction hreach with
  | refl => exact h
  | step hstep _ ih =>
      refine ih (h.step ho hstep) ?_
      rw [(step_round hstep).all_markers]
      exact ho

theorem Clear.reaches (h : Clear st) (hreach : Reaches st st')
    (hjoins : ∀ u, Reaches st u → ¬Joins u) : Clear st' := by
  induction hreach with
  | refl => exact h
  | step hstep _ ih =>
      exact ih (h.step (hjoins _ (.refl _)) hstep) fun u hu => hjoins u (.step hstep hu)

/-- The loops leave a text without markers exactly if no erasure forms a marker that they do
not come back to. -/
theorem removeEach_free_iff {c : α} (ho : Ordered c markers) (s : List α) :
    (∀ m ∈ markers, ¬m <:+: removeEach markers s) ↔
      ∀ st, Reaches ⟨[], markers, s⟩ st → ¬Joins st := by
  have hne : ∀ t ∈ markers, t ≠ [] := by
    intro t ht
    obtain ⟨u, rfl, -⟩ := ho.head t ht
    exact List.cons_ne_nil c u
  have hlast : Reaches ⟨[], markers, s⟩ ⟨markers, [], removeEach markers s⟩ :=
    reaches_removeEach hne [] s
  constructor
  · intro hfree st hst hjoins
    cases hst.last hlast rfl with
    | refl => exact hjoins
    | @step _ st' _ hstep hrest =>
        obtain ⟨m, hstuck⟩ := hjoins.stuck hstep
        have hlists : st'.done ++ st'.todo = markers :=
          (step_round hstep).all_markers.trans hst.all_markers
        have hend := hstuck.reaches (hlists.symm ▸ ho) hrest
        exact hfree m hend.finished hend.occurs
  · intro hjoins m hm hoccurs
    have hclear : Clear (⟨[], markers, s⟩ : State α) := by
      intro m hm
      cases hm
    obtain ⟨t, ht, -⟩ := hclear.reaches hlast hjoins m hm hoccurs
    cases ht

end Removal
