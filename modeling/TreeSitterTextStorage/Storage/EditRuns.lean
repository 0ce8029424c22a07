import TreeSitterTextStorage.Library.Run
import TreeSitterTextStorage.Storage.Queries

/-! # Runs of edits

What `replaceCharacters(in:with:)` does to a storage over whole runs. The buffer follows the edits
exactly, but every completed call takes one from the stored length, counts characters instead of units
and never parses, so the stored length and the cache fall behind the text with the first edit. -/

namespace TreeSitterTextStorage

open Splice

namespace TextStorage

/-- The text after a sequence of edits. -/
def finalText (text : Text) (edits : List Edit) : Text := edits.foldl Edit.apply text

/-- Every edit lies inside the text that the edits before it leave. -/
def EditsWithin : Text → List Edit → Prop
  | _, [] => True
  | text, edit :: rest =>
      edit.range.location + edit.range.length ≤ text.length ∧ EditsWithin (edit.apply text) rest

variable {breaks : GraphemeBreaks} {before after : TextStorage} {text : Text} {edit : Edit}
  {notice : Notice}

/-! ## One edit -/

/-- **The buffer follows the text.** A completed call lies inside the text and splices the buffer. -/
theorem data_editStep (hdata : before.document.input.data = utf16Data text)
    (h : editStep breaks before edit = some (notice, after)) :
    edit.range.location + edit.range.length ≤ text.length ∧
      after.document.input.data = utf16Data (edit.apply text) := by
  obtain ⟨input, hinput, -, -, -, hdocument, -⟩ := replaceCharacters_eq_some h
  rw [Input.replaceCharactersInRange, hdata, Data.replaceCharactersInRange_utf16Data] at hinput
  by_cases hwithin : edit.range.location + edit.range.length ≤ text.length
  · rw [if_pos hwithin, Option.bind_eq_bind, Option.bind_some, Option.some.injEq] at hinput
    subst hinput
    rw [hdocument]
    exact ⟨hwithin, rfl⟩
  · rw [if_neg hwithin] at hinput
    exact absurd hinput (by simp)

/-- The length of the text after a completed call. -/
theorem length_apply (h : edit.range.location + edit.range.length ≤ text.length) :
    (edit.apply text).length + edit.range.length = text.length + edit.str.length := by
  rw [Edit.apply, length_splice _ (Nat.le_add_right _ _) h]
  omega

/-- The length of a storage is the length of the text in its buffer. -/
theorem length_of_data {self : TextStorage} (h : self.document.input.data = utf16Data text) :
    self.length = some text.length := by
  rw [length, string, h, decodeUtf16_utf16Data, Option.map_some]

/-! ## The lag -/

/-- A storage whose buffer holds a text and whose stored length is at least `lag` too short. -/
structure Lags (text : Text) (lag : ℕ) (storage : TextStorage) : Prop where
  /-- The buffer is the data of the text. -/
  buffer : storage.document.input.data = utf16Data text
  /-- The stored length is too short. -/
  length_le : storage._length + lag ≤ text.length

/-- **Every edit adds to the lag**: a call removes one element more than its range has and adds no
more characters than the replacement has units. -/
theorem Lags.editStep {lag : ℕ} (h : before.Lags text lag)
    (hstep : TextStorage.editStep breaks before edit = some (notice, after)) :
    after.Lags (edit.apply text) (lag + 1) := by
  obtain ⟨hwithin, hdata⟩ := data_editStep h.buffer hstep
  obtain ⟨-, -, hcount, hlength, -⟩ := replaceCharacters_eq_some hstep
  have hunits := characterCount_le_length breaks edit.str
  have happly := length_apply hwithin
  have hle := h.length_le
  refine ⟨hdata, ?_⟩
  rw [hlength]
  omega

/-- **The lag of a run** is at least its number of edits. -/
theorem Lags.run {lag : ℕ} {edits : List Edit} (h : before.Lags text lag)
    (hrun : Machine.run (TextStorage.editStep breaks) before edits = some after) :
    after.Lags (finalText text edits) (lag + edits.length) := by
  induction edits generalizing before text lag with
  | nil =>
      rw [Machine.run_nil, Option.some.injEq] at hrun
      exact hrun ▸ h
  | cons edit rest ih =>
      obtain ⟨notice, next, hstep, hrest⟩ := Machine.run_cons_eq_some.mp hrun
      have hlag := ih (h.editStep hstep) hrest
      rw [Nat.add_right_comm] at hlag
      exact hlag

/-- After a run with an edit the cache has as many entries as the stored length says. -/
theorem length_cache_run {edits : List Edit} (hedits : edits ≠ [])
    (hrun : Machine.run (editStep breaks) before edits = some after) :
    after.cache.length = after._length := by
  induction edits generalizing before with
  | nil => exact absurd rfl hedits
  | cons edit rest ih =>
      obtain ⟨notice, next, hstep, hrest⟩ := Machine.run_cons_eq_some.mp hrun
      cases rest with
      | nil =>
          rw [Machine.run_nil, Option.some.injEq] at hrest
          subst hrest
          obtain ⟨-, -, -, -, hcache, -⟩ := replaceCharacters_eq_some hstep
          rw [hcache, List.length_replicate]
      | cons edit rest => exact ih (List.cons_ne_nil edit rest) hrest

/-- A new storage does not lag. -/
theorem lags_init {parser : Parser} {theme : ColorTheme} {language : Language} {self : TextStorage}
    (h : init parser text theme language = some self) : self.Lags text 0 := by
  obtain ⟨-, rfl⟩ := init_eq_some_iff.mp h
  exact ⟨rfl, le_rfl⟩

/-! ## The state after every edit -/

/-- What a call of `replaceCharacters(in:with:)` should leave behind. -/
structure KeepsState (before : TextStorage) (edit : Edit) (notice : Notice) (after : TextStorage) :
    Prop where
  /-- The units of the string are the old units with the range replaced. -/
  spliced : ∃ text, before.string = some text ∧ after.string = some (edit.apply text)
  /-- The stored length is the number of units of the string. -/
  length_eq : after.length = some after._length
  /-- The cache has an entry for every unit. -/
  cache_le : ∃ n, after.length = some n ∧ n ≤ after.cache.length
  /-- The cache is empty. -/
  cache_empty : ∀ entry ∈ after.cache, entry = none
  /-- The reported change is the change of the number of units. -/
  change_eq : ∃ n m, before.length = some n ∧ after.length = some m ∧
    notice.changeInLength = (m : ℤ) - n

/-- **Runs that keep the state**: on a new storage, every call of a run completes and leaves string,
stored length, cache and reported change in step only if there is no call at all. -/
theorem always_keepsState_iff {parser : Parser} {theme : ColorTheme} {language : Language}
    {self : TextStorage} (h : init parser text theme language = some self) {edits : List Edit} :
    Machine.Always (editStep breaks) KeepsState self edits ↔ edits = [] := by
  have hlags := lags_init h
  apply Machine.always_iff_eq_nil
  intro edit notice after hstep hkeeps
  -- the stored length has fallen behind, whatever the edit was
  have hlag := hlags.editStep hstep
  have hlength := hkeeps.length_eq
  rw [length_of_data hlag.buffer, Option.some.injEq] at hlength
  have hle := hlag.length_le
  omega

/-- The text `1`. -/
def oneText : Text := [0x31]

/-- A new storage on `1`. -/
def oneStorage : TextStorage :=
  opened oneText (jsonNode .symValue 0 1 [jsonNode .symNumber 0 1 []]) .default .json

/-- The storage is a new one. -/
theorem init_one : init numberParser oneText .default .json = some oneStorage :=
  init_eq_some_iff.mpr ⟨by decide, rfl⟩

/-- The theorem on `1` and the insertion of `2` behind it. -/
theorem always_keepsState_iff_one :
    Machine.Always (editStep fun _ _ => true) KeepsState oneStorage [⟨⟨1, 0⟩, [0x32]⟩] ↔
      [(⟨⟨1, 0⟩, [0x32]⟩ : Edit)] = [] :=
  always_keepsState_iff init_one

/-- The deletion of the only character of `1` traps. -/
theorem not_always_keepsState_delete :
    ¬ ∀ (parser : Parser) (breaks : GraphemeBreaks) (theme : ColorTheme) (language : Language)
      (text : Text) (self : TextStorage) (edits : List Edit),
      init parser text theme language = some self → EditsWithin text edits →
        Machine.Always (editStep breaks) KeepsState self edits := by
  intro hall
  obtain ⟨notice, after, hstep, -⟩ := hall numberParser (fun _ _ => true) .default .json oneText
    oneStorage [⟨⟨0, 1⟩, []⟩] init_one ⟨by decide, trivial⟩
  have htrap : (editStep (fun _ _ => true) oneStorage ⟨⟨0, 1⟩, []⟩).isSome = false := by
    decide +kernel
  rw [hstep] at htrap
  exact Bool.noConfusion htrap

/-! ## The history of a storage -/

/-- A storage after edits answers every query like a new storage on the final text. -/
def HistoryIndependent (parser : Parser) (breaks : GraphemeBreaks) (theme : ColorTheme)
    (language : Language) (text : Text) (edits : List Edit) : Prop :=
  ∃ initial edited fresh, init parser text theme language = some initial ∧
    Machine.run (editStep breaks) initial edits = some edited ∧
    init parser (finalText text edits) theme language = some fresh ∧
    ∀ location < (finalText text edits).length, ∀ range, ∃ answer editedNext freshNext,
      edited.attributes location range = some (answer, editedNext) ∧
        fresh.attributes location range = some (answer, freshNext)

/-- A query on a new storage is answered. -/
theorem attributes_init {parser : Parser} {theme : ColorTheme} {language : Language}
    {self : TextStorage} (h : init parser text theme language = some self) {location : ℕ}
    (hlocation : location < text.length) (range : Bool) :
    ∃ answer next, self.attributes location range = some (answer, next) := by
  obtain ⟨root, hshows, hempty⟩ := shows_init h
  exact ⟨_, _, hshows.attributes_of_miss hlocation (hshows.cache_eq_none hempty hlocation) range⟩

/-- **When highlighting does not depend on the history**: a storage answers like a new storage on its
text exactly when it has not been edited. -/
theorem historyIndependent_iff {parser : Parser} {theme : ColorTheme} {language : Language}
    {self : TextStorage} (h : init parser text theme language = some self) {edits : List Edit} :
    HistoryIndependent parser breaks theme language text edits ↔ edits = [] := by
  constructor
  · rintro ⟨initial, edited, fresh, hinitial, hrun, -, hsame⟩
    by_contra hedits
    -- the cache of the edited storage ends before the last location
    have hlag := (lags_init hinitial).run hrun
    have hle := hlag.length_le
    have hpos := List.length_pos_iff.mpr hedits
    have hlast : (finalText text edits).length - 1 < (finalText text edits).length := by omega
    obtain ⟨answer, editedNext, -, hedited, -⟩ := hsame _ hlast true
    have hnone : edited.cache[(finalText text edits).length - 1]? = none := by
      rw [List.getElem?_eq_none_iff, length_cache_run hedits hrun]
      omega
    rw [attributes, hnone] at hedited
    exact absurd hedited (by simp)
  · rintro rfl
    -- without edits both storages are the same one
    refine ⟨self, self, self, h, rfl, h, ?_⟩
    intro location hlocation range
    obtain ⟨answer, next, hanswer⟩ := attributes_init h hlocation range
    exact ⟨answer, next, next, hanswer, hanswer⟩

/-- The theorem on `1` and the insertion of `2` behind it. -/
theorem historyIndependent_iff_one :
    HistoryIndependent numberParser (fun _ _ => true) .default .json oneText [⟨⟨1, 0⟩, [0x32]⟩] ↔
      [(⟨⟨1, 0⟩, [0x32]⟩ : Edit)] = [] :=
  historyIndependent_iff init_one

/-- After the insertion of `2` behind `1` a query at the `2` traps. -/
theorem not_historyIndependent_insert :
    ¬ ∀ (parser : Parser) (breaks : GraphemeBreaks) (theme : ColorTheme) (language : Language)
      (text : Text) (self : TextStorage) (edits : List Edit),
      init parser text theme language = some self → EditsWithin text edits →
        HistoryIndependent parser breaks theme language text edits := by
  intro hall
  obtain ⟨initial, edited, fresh, hinitial, hrun, -, hsame⟩ := hall numberParser (fun _ _ => true)
    .default .json oneText oneStorage [⟨⟨1, 0⟩, [0x32]⟩] init_one ⟨by decide, trivial⟩
  obtain ⟨answer, editedNext, -, hedited, -⟩ := hsame 1 (by decide) true
  rw [init_one, Option.some.injEq] at hinitial
  subst hinitial
  have htrap : ((Machine.run (editStep fun _ _ => true) oneStorage [⟨⟨1, 0⟩, [0x32]⟩]).bind
      fun edited => edited.attributes 1 true).isSome = false := by decide +kernel
  rw [hrun, Option.bind_some, hedited] at htrap
  exact Bool.noConfusion htrap

end TextStorage

end TreeSitterTextStorage
