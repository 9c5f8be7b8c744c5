import SmollChat.Library.Utf8
import SmollChat.Verification.LLMInference.Finished
import SmollChat.Verification.SmollAI.Collections

/-! # Characters in the response stream

Every piece goes to Kotlin as a string of its own. A token ends where the model cuts its
text, which may be inside a character. -/

namespace SmollChat

open LLMInference (generated shown)
open Utf8

/-- A token drawn by a loop call: its text for the engine, and what the call returned. -/
structure DrawnToken where
  piece : Bytes
  result : LoopResult
  deriving DecidableEq

/-- The text that counts for the reply: all but that of the token that ends it. -/
def DrawnToken.spelled (t : DrawnToken) : Bytes := if t.result = .eog then [] else t.piece

def DrawnToken.shown (t : DrawnToken) : Bytes := generated t.result

namespace SmollAI

def pieceOf (s : SmollAI) (d : Draw) : Bytes :=
  (s.native.map fun n => n.1.commonTokenToPiece d.sampled).getD []

end SmollAI

def ResponseFlow.tokens : ResponseFlow → List Draw → List DrawnToken
  | _, [] => []
  | f, d :: draws =>
      if f.finished then []
      else ⟨f.smollai.pieceOf d, f.smollai.loopResult d⟩ :: tokens (f.step d) draws

/-- Each token that shows something begins and ends between characters of the whole text, and
its text is plain. -/
def CutsBetween : Bytes → List DrawnToken → Prop
  | _, [] => True
  | before, t :: tokens =>
      (t.shown ≠ [] → WellFormed before ∧ WellFormed (before ++ t.spelled) ∧
        t.result.isPlain = true) ∧ CutsBetween (before ++ t.spelled) tokens

instance CutsBetween.decidable : ∀ (before : Bytes) (tokens : List DrawnToken),
    Decidable (CutsBetween before tokens)
  | _, [] => isTrue trivial
  | before, t :: tokens =>
      have := CutsBetween.decidable (before ++ t.spelled) tokens
      inferInstanceAs (Decidable ((_ → _ ∧ _ ∧ _) ∧ _))

/-! ## The tokens of a flow -/

/-- A result that is no error is the end, or shows the token's text or nothing. -/
structure DrawnToken.Sound (t : DrawnToken) : Prop where
  text : t.result = .eog ∨ t.result.text = t.shown
  shown : t.shown = [] ∨ t.shown = t.spelled

namespace ResponseFlow

theorem sound_of_not_error {s : SmollAI} {d : Draw} (h : (s.loopResult d).isError = false) :
    DrawnToken.Sound ⟨s.pieceOf d, s.loopResult d⟩ := by
  by_cases heog : s.loopResult d = .eog
  · exact ⟨.inl heog, .inl (by simp [DrawnToken.shown, heog, generated])⟩
  · have herr : ∀ e, s.loopResult d ≠ .error e := by
      intro e he
      simp [he, LoopResult.isError] at h
    have htext : (s.loopResult d).text = generated (s.loopResult d) := by
      cases hr : s.loopResult d with
      | piece text => rfl
      | filtered => rfl
      | eog => exact absurd hr heog
      | error e => exact absurd hr (herr e)
    refine ⟨.inr htext, ?_⟩
    cases hnative : s.native with
    | none =>
        unfold SmollAI.loopResult at herr
        rw [hnative] at herr
        split at herr <;> exact absurd rfl (herr _)
    | some n =>
        obtain ⟨hresult, -⟩ := SmollAI.completionLoop_native hnative d
        rw [hresult] at herr heog htext
        obtain ⟨-, hshown, -⟩ := LLMInference.completionLoop_token
          (r := (n.2.completionLoop n.1 d).1) rfl herr heog
        have hpiece : s.pieceOf d = n.1.commonTokenToPiece d.sampled := by
          simp [SmollAI.pieceOf, hnative]
        rw [DrawnToken.shown, DrawnToken.spelled, hresult, if_neg heog, hpiece, ← htext, hshown,
          LLMInference.shown]
        split
        · exact .inl rfl
        · exact .inr rfl

theorem tokens_finished {f : ResponseFlow} (h : f.finished = true) (draws : List Draw) :
    f.tokens draws = [] := by
  cases draws with
  | nil => rfl
  | cons d draws => exact if_pos h

theorem tokens_open {f : ResponseFlow} (h : f.finished = false) (d : Draw) (draws : List Draw) :
    f.tokens (d :: draws) =
      ⟨f.smollai.pieceOf d, f.smollai.loopResult d⟩ :: (f.step d).tokens draws :=
  if_neg (by simp [h])

theorem tokens_sound {f : ResponseFlow} {draws : List Draw}
    (h : ∀ t ∈ f.tokens draws, t.result.isError = false) : ∀ t ∈ f.tokens draws, t.Sound := by
  induction draws generalizing f with
  | nil => simp [tokens]
  | cons d draws ih =>
      cases hf : f.finished with
      | true => simp [tokens_finished hf]
      | false =>
          rw [tokens_open hf] at h ⊢
          intro t ht
          rcases List.mem_cons.mp ht with rfl | ht
          · exact sound_of_not_error (h _ List.mem_cons_self)
          · exact ih (fun t ht => h t (List.mem_cons_of_mem _ ht)) t ht

theorem text_eq (f : ResponseFlow) (draws : List Draw) :
    f.text draws = (f.tokens draws).flatMap DrawnToken.shown := by
  induction draws generalizing f with
  | nil => rfl
  | cons d draws ih =>
      rw [text, tokens]
      split
      · rfl
      · rw [ih]
        rfl

/-- A flow emits every result but the one it ends with. -/
theorem emitted_eq {f : ResponseFlow} (hf : f.finished = false) (draws : List Draw) :
    (draws.foldl step f).emitted = f.emitted ++
      ((f.tokens draws).map fun t => t.result.toKotlin).filter (· ≠ eogMarker) := by
  induction draws generalizing f with
  | nil => simp [tokens]
  | cons d draws ih =>
      rw [List.foldl_cons, tokens_open hf, List.map_cons]
      by_cases hmarker : (f.smollai.loopResult d).toKotlin = eogMarker
      · have hstep : f.step d =
            ⟨(f.smollai.completionLoop d).2.stopCompletion, f.emitted, true⟩ := by
          rw [step, hf]
          exact if_pos hmarker
        rw [hstep, SmollAI.foldl_step_finished _ rfl, tokens_finished rfl]
        simp [hmarker]
      · have hstep : f.step d = ⟨(f.smollai.completionLoop d).2,
            f.emitted ++ [(f.smollai.loopResult d).toKotlin], false⟩ := by
          rw [step, hf]
          exact if_neg hmarker
        rw [ih (by rw [hstep]), hstep]
        simp [hmarker]

end ResponseFlow

/-! ## Cuts -/

/-- What Kotlin gets of a token's text. -/
def DrawnToken.heard (t : DrawnToken) : Bytes :=
  if t.result.toKotlin = eogMarker then [] else t.result.toKotlin.bytes

theorem flatten_emitted (tokens : List DrawnToken) :
    (((tokens.map fun t => t.result.toKotlin).filter (· ≠ eogMarker)).map CString.bytes).flatten =
      tokens.flatMap DrawnToken.heard := by
  induction tokens with
  | nil => rfl
  | cons t tokens ih =>
      rw [List.map_cons, List.flatMap_cons, ← ih, DrawnToken.heard]
      by_cases hmarker : t.result.toKotlin = eogMarker
      · simp [hmarker]
      · simp [hmarker]

theorem emitted_wellFormed {tokens : List DrawnToken}
    (h : ∀ t ∈ tokens, WellFormed t.result.toKotlin.bytes) :
    ∀ b ∈ ((tokens.map fun t => t.result.toKotlin).filter (· ≠ eogMarker)).map CString.bytes,
      WellFormed b := by
  intro b hb
  obtain ⟨r, hr, rfl⟩ := List.mem_map.mp hb
  obtain ⟨t, ht, rfl⟩ := List.mem_map.mp (List.mem_of_mem_filter hr)
  exact h t ht

theorem DrawnToken.Sound.heard_le_shown {t : DrawnToken} (h : t.Sound) : t.heard <+: t.shown := by
  unfold heard
  split
  · exact List.nil_prefix
  · rename_i hmarker
    rcases h.text with heog | htext
    · rw [heog] at hmarker
      exact absurd rfl hmarker
    · rw [← htext]
      exact List.takeWhile_prefix _

theorem DrawnToken.heard_iff {t : DrawnToken} (hne : t.shown ≠ []) :
    t.heard = t.shown ↔ t.result.isPlain = true := by
  unfold heard shown at *
  cases hr : t.result with
  | piece text =>
      rw [hr] at hne
      change text ≠ [] at hne
      constructor
      · intro heq
        split at heq
        · exact absurd heq.symm hne
        · rename_i hmarker
          have hnul : 0 ∉ text := by
            rw [← show (LoopResult.piece text).toKotlin.bytes = text from heq]
            exact (LoopResult.piece text).toKotlin.nul_free
          have hother : text ≠ ascii "[EOG]" := by
            rintro rfl
            exact hmarker rfl
          simp [LoopResult.isPlain, hnul, hother]
      · intro hplain
        obtain ⟨heog, hbytes⟩ := LoopResult.isPlain_toKotlin hplain
        rw [if_neg fun hmarker => absurd (heog hmarker) (by simp)]
        exact hbytes
  | filtered => exact absurd (congrArg generated hr) hne
  | eog => exact absurd (congrArg generated hr) hne
  | error e => exact absurd (congrArg generated hr) hne

/-- A sound token whose text is whole and plain reaches Kotlin as it is. -/
theorem DrawnToken.Sound.whole {t : DrawnToken} (h : t.Sound)
    (hclean : t.shown ≠ [] → WellFormed t.shown ∧ t.result.isPlain = true) :
    WellFormed t.result.toKotlin.bytes ∧ t.heard = t.shown := by
  by_cases hne : t.shown = []
  · constructor
    · rcases h.text with heog | htext
      · rw [heog]
        decide +kernel
      · rw [LoopResult.toKotlin, htext, hne]
        exact wellFormed_nil
    · rw [hne]
      exact List.prefix_nil.mp (hne ▸ h.heard_le_shown)
  · obtain ⟨hwell, hplain⟩ := hclean hne
    refine ⟨?_, (heard_iff hne).mpr hplain⟩
    rcases h.text with heog | htext
    · exact absurd (congrArg generated heog) hne
    · rw [(LoopResult.isPlain_toKotlin hplain).2, htext]
      exact hwell

/-- The texts shown are well-formed and plain exactly where the tokens cut between
characters. -/
theorem cutsBetween_iff {before : Bytes} {tokens : List DrawnToken}
    (hsound : ∀ t ∈ tokens, t.Sound)
    (hwell : WellFormed (before ++ tokens.flatMap DrawnToken.spelled)) :
    CutsBetween before tokens ↔
      ∀ t ∈ tokens, t.shown ≠ [] → WellFormed t.shown ∧ t.result.isPlain = true := by
  induction tokens generalizing before with
  | nil => simp [CutsBetween]
  | cons t tokens ih =>
      rw [List.flatMap_cons] at hwell
      have htail : ∀ t' ∈ tokens, t'.Sound := fun t' ht' => hsound t' (List.mem_cons_of_mem t ht')
      rw [CutsBetween, ih htail (by rwa [List.append_assoc]), List.forall_mem_cons]
      apply and_congr_left'
      apply imp_congr_right
      intro hne
      have hspelled : t.shown = t.spelled := (hsound t List.mem_cons_self).shown.resolve_left hne
      rw [← hspelled] at hwell ⊢
      constructor
      · rintro ⟨hbefore, hafter, hplain⟩
        exact ⟨(wellFormed_append_iff hbefore).mp hafter, hplain⟩
      · rintro ⟨hpiece, hplain⟩
        have hbefore := hwell.front hpiece hne
        exact ⟨hbefore, (wellFormed_append_iff hbefore).mpr hpiece, hplain⟩

namespace SmollAI

/-- The strings of a collection that go to Kotlin are well-formed, and decoded one by one
they give the characters of the reply. -/
structure KeepsCharacters (s : SmollAI) (c : Collection) : Prop where
  passed : ∀ t ∈ (s.getResponse c.query).tokens c.draws, WellFormed t.result.toKotlin.bytes
  decoded : decodeEach ((s.collect c).emitted.map CString.bytes) =
    decode ((s.getResponse c.query).text c.draws)

/-- In a collection without errors whose tokens spell a well-formed text, its characters
reach Kotlin exactly when every token that shows something begins and ends between
characters and its text is plain. -/
theorem keepsCharacters_iff (s : SmollAI) (c : Collection)
    (herror : ∀ t ∈ (s.getResponse c.query).tokens c.draws, t.result.isError = false)
    (hwell : WellFormed
      (((s.getResponse c.query).tokens c.draws).flatMap DrawnToken.spelled)) :
    s.KeepsCharacters c ↔ CutsBetween [] ((s.getResponse c.query).tokens c.draws) := by
  have hsound := ResponseFlow.tokens_sound herror
  have hemitted : (((s.getResponse c.query).tokens c.draws).map
      fun t => t.result.toKotlin).filter (· ≠ eogMarker) = (s.collect c).emitted :=
    (ResponseFlow.emitted_eq (f := s.getResponse c.query) rfl c.draws).symm
  have hheard : ((s.collect c).emitted.map CString.bytes).flatten =
      ((s.getResponse c.query).tokens c.draws).flatMap DrawnToken.heard := by
    rw [← hemitted]
    exact flatten_emitted _
  have hcuts : CutsBetween [] ((s.getResponse c.query).tokens c.draws) ↔ _ :=
    cutsBetween_iff hsound hwell
  rw [hcuts]
  constructor
  · rintro ⟨hpassed, hdecoded⟩ t ht hne
    have heach := hemitted ▸ emitted_wellFormed hpassed
    rw [decodeEach_eq heach] at hdecoded
    have htexts := eq_of_decode_eq (.flatten heach) hdecoded
    rw [hheard, ResponseFlow.text_eq] at htexts
    have heq : t.heard = t.shown :=
      eq_of_flatMap_eq (fun t ht => (hsound t ht).heard_le_shown) htexts t ht
    refine ⟨?_, (DrawnToken.heard_iff hne).mp heq⟩
    rw [← heq, DrawnToken.heard]
    split
    · exact wellFormed_nil
    · exact hpassed t ht
  · intro hclean
    have hwhole t ht := (hsound t ht).whole (hclean t ht)
    have heach := hemitted ▸ emitted_wellFormed fun t ht => (hwhole t ht).1
    refine ⟨fun t ht => (hwhole t ht).1, ?_⟩
    rw [decodeEach_eq heach, hheard, ResponseFlow.text_eq]
    exact congrArg decode (List.flatMap_congr fun t ht => (hwhole t ht).2)

def accentAnswer : LLMInference.LoadAnswer :=
  ⟨some { ByteEngine.engine 1024 with
    commonTokenToPiece := fun token => if token = 300 then ascii "é" else ByteEngine.piece token
    nTokens := 301 }, true, true, true⟩

theorem keepsCharacters_accent : (new.create byteRequest accentAnswer).KeepsCharacters
    ⟨.lit "hi", [.ok 72, .ok 300]⟩ :=
  (keepsCharacters_iff (new.create byteRequest accentAnswer) ⟨.lit "hi", [.ok 72, .ok 300]⟩
    (by decide +kernel) (by decide +kernel)).mpr (by decide +kernel)

/-- One character in two tokens: its text is well-formed, neither string that goes to Kotlin
is. -/
theorem keepsCharacters_fails :
    WellFormed (((byteSmollAI.getResponse (.lit "hi")).tokens [.ok 195, .ok 169]).flatMap
        DrawnToken.spelled) ∧
      ¬byteSmollAI.KeepsCharacters ⟨.lit "hi", [.ok 195, .ok 169]⟩ := by
  constructor
  · decide +kernel
  · intro h
    have hfirst := h.passed ⟨[195], .piece [195]⟩ (by decide +kernel)
    exact absurd hfirst (by decide +kernel)

end SmollAI

end SmollChat
