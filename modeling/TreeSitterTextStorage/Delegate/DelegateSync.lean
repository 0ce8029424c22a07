import TreeSitterTextStorage.Delegate.TextStorageDelegate
import TreeSitterTextStorage.Library.Run
import TreeSitterTextStorage.Storage.EditRuns

/-! # The document of the delegate

The delegate hears of an edit after it has happened. It takes the edited range, which lies in the new
text, for a range of its own old buffer, and the whole new text for the replacement. So its document
stays in step with the text exactly as long as every edit replaces the whole text by one of the same
length. -/

namespace TreeSitterTextStorage

open Splice

namespace TextStorageDelegate

/-! ## A text view -/

/-- A text storage together with the document of its delegate. -/
structure TextView where
  /-- The text storage. -/
  textStorage : NSTextStorage
  /-- The document of the delegate. -/
  document : Document

/-- An edit of the text: the replaced range, the text that goes there, and the attributes it gets. -/
structure TextEdit where
  /-- The replaced range. -/
  range : NSRange
  /-- The replacement. -/
  str : Text
  /-- The attributes that the text storage gives the replacement. -/
  attributes : Attributes
  deriving DecidableEq, Repr

/-- An edit of the text storage, which it reports to its delegate with the range of the replacement
in the new text and the change in length. -/
def editStep (parser : Parser) (breaks : GraphemeBreaks) (view : TextView) (edit : TextEdit) :
    Option (TSInputEdit × TextView) := do
  let textStorage ← view.textStorage.replaceCharacters edit.range edit.str edit.attributes
  let (description, document, textStorage) ←
    didProcessEditing parser breaks view.document textStorage ⟨edit.range.location, edit.str.length⟩
      ((edit.str.length : ℤ) - edit.range.length)
  some (description, ⟨textStorage, document⟩)

/-- What a callback should leave behind: the document holds the text of the text storage, and the
runtime has been told which bytes were replaced. -/
structure InSync (before : TextView) (edit : TextEdit) (description : TSInputEdit) (after : TextView) :
    Prop where
  /-- The text of the text storage is the old one with the range replaced. -/
  string_eq : after.textStorage.string = splice edit.range.location
    (edit.range.location + edit.range.length) edit.str before.textStorage.string
  /-- The buffer of the document is the data of the text. -/
  data_eq : after.document.input.data = utf16Data after.textStorage.string
  /-- The first byte of the edit. -/
  startByte_eq : description.startByte = 2 * edit.range.location
  /-- The number of removed bytes. -/
  bytesRemoved_eq : description.bytesRemoved = 2 * edit.range.length
  /-- The number of added bytes. -/
  bytesAdded_eq : description.bytesAdded = 2 * edit.str.length

/-- An edit that replaces the whole text by as many units, each of them a character. -/
structure ReplacesAll (breaks : GraphemeBreaks) (view : TextView) (edit : TextEdit) : Prop where
  /-- The range starts at the start of the text. -/
  location_eq : edit.range.location = 0
  /-- The range ends at the end of the text. -/
  length_eq : edit.range.length = view.textStorage.string.length
  /-- The replacement is as long as the text. -/
  units_eq : edit.str.length = view.textStorage.string.length
  /-- Every unit of the replacement is a character. -/
  characters_eq : characterCount breaks edit.str = edit.str.length
  /-- The number of bytes of the replacement is a `UInt32`. -/
  bound : 2 * edit.str.length < 2 ^ 32

/-- The document of a view holds its text. -/
def Synced (view : TextView) : Prop :=
  view.document.input.data = utf16Data view.textStorage.string

variable {parser : Parser} {breaks : GraphemeBreaks} {before after : TextView} {edit : TextEdit}
  {description : TSInputEdit}

/-! ## What a callback does -/

/-- A parse leaves the input alone. -/
theorem input_parseAndGetChangedRanges {document next : Document}
    (h : document.parseAndGetChangedRanges parser = some next) : next.input = document.input := by
  obtain ⟨reusableTree, hreusable⟩ : ∃ tree, tree = if document.valid then document.tree else none :=
    ⟨_, rfl⟩
  simp only [Document.parseAndGetChangedRanges, ← hreusable] at h
  split at h
  · rw [← Option.some.inj h]
  · obtain ⟨length, -, rfl⟩ := Option.map_eq_some_iff.mp h
    rfl

/-- A parse of an input whose length is known completes on an edited tree, with a root. -/
theorem parseAndGetChangedRanges_edited {document : Document} {description : TSInputEdit} {n : ℕ}
    (hstart : description.startByte = 0) (hlength : document.input.length = some n) :
    ∃ next root, (document.makeInputEdit description).parseAndGetChangedRanges parser = some next ∧
      next.input = document.input ∧ next.rootNode = some root := by
  have hchanged : (if (document.makeInputEdit description).valid then
      (document.makeInputEdit description).tree else none).any
        (fun tree => !tree.label.hasChanges) = false := by
    split
    · rw [Document.makeInputEdit]
      cases document.tree with
      | none => rfl
      | some tree =>
          -- an edit at the start always marks the root as changed
          have hle : description.startByte ≤ tsTreeTotalBytes tree.label := by
            rw [hstart]
            exact Nat.zero_le _
          rw [Option.map_some, Option.any_some, hasChanges_tsDocumentEdit hle, Bool.not_true]
    · rfl
  rw [Document.parseAndGetChangedRanges]
  simp only [hchanged, Bool.false_eq_true, if_false, Document.input_makeInputEdit, hlength,
    Option.map_some]
  obtain ⟨root, hroot⟩ := Option.isSome_iff_exists.mp (parser.hasRoot
    (document.makeInputEdit description).language document.input.served
    (if (document.makeInputEdit description).valid then
      (document.makeInputEdit description).tree else none))
  refine ⟨_, visibleNode root root.tree, rfl, rfl, ?_⟩
  rw [Document.rootNode]
  simp only [Option.bind_eq_bind, Option.bind_some, hroot]

/-- **What a completed callback does**: it puts the whole new text where the old buffer has the edited
range, and calls every character of the new text two added bytes. -/
theorem didProcessEditing_eq_some {document next : Document} {textStorage painted : NSTextStorage}
    {text : Text} {range : NSRange} {delta : ℤ} (hdata : document.input.data = utf16Data text)
    (h : didProcessEditing parser breaks document textStorage range delta =
      some (description, next, painted)) :
    range.location + range.length ≤ text.length ∧ 2 * range.length < 2 ^ 32 ∧
      painted.string = textStorage.string ∧ next.input.data = utf16Data
        (splice range.location (range.location + range.length) textStorage.string text) ∧
      description.startByte = 2 * range.location ∧ description.bytesRemoved = 2 * range.length ∧
      description.bytesAdded = 2 * characterCount breaks textStorage.string := by
  simp only [didProcessEditing, Option.bind_eq_bind, Option.bind_eq_some_iff, Option.some.injEq,
    Prod.mk.injEq] at h
  obtain ⟨location, hlocation, startByte, hstart, length, hlength, bytesRemoved, hremoved,
    characters, hcharacters, bytesAdded, hadded, input, hinput, parsed, hparsed, coloured, hcoloured,
    rfl, rfl, rfl⟩ := h
  obtain ⟨hlocation, -⟩ := toUInt32_eq_some_iff.mp hlocation
  obtain ⟨hlength, -⟩ := toUInt32_eq_some_iff.mp hlength
  obtain ⟨hcharacters, -⟩ := toUInt32_eq_some_iff.mp hcharacters
  obtain ⟨hstart, -⟩ := mulUInt32_eq_some_iff.mp hstart
  obtain ⟨hremoved, hbound⟩ := mulUInt32_eq_some_iff.mp hremoved
  obtain ⟨hadded, -⟩ := mulUInt32_eq_some_iff.mp hadded
  have hparsedInput := input_parseAndGetChangedRanges hparsed
  rw [Input.replaceCharactersInRange, hdata, Data.replaceCharactersInRange_utf16Data] at hinput
  by_cases hle : range.location + range.length ≤ text.length
  · rw [if_pos hle, Option.bind_eq_bind, Option.bind_some, Option.some.injEq] at hinput
    subst hinput
    refine ⟨hle, by omega, string_parse hcoloured, ?_, ?_, ?_, ?_⟩
    · rw [hparsedInput]
      rfl
    · simp only
      omega
    · simp only
      omega
    · simp only
      omega
  · rw [if_neg hle] at hinput
    exact absurd hinput (by simp)

/-- **The callback on a replaced text**: when the edited range is all of the old buffer, the callback
completes and the buffer holds the new text. -/
theorem didProcessEditing_of_all {document : Document} {textStorage : NSTextStorage} {text : Text}
    {delta : ℤ} (hdata : document.input.data = utf16Data text)
    (hlength : textStorage.string.length = text.length) (hbound : 2 * text.length < 2 ^ 32) :
    ∃ description next painted,
      didProcessEditing parser breaks document textStorage ⟨0, text.length⟩ delta =
        some (description, next, painted) := by
  have hcount : characterCount breaks textStorage.string ≤ text.length :=
    (characterCount_le_length breaks textStorage.string).trans hlength.le
  have hlocation : toUInt32 ((0 : ℕ) : ℤ) = some 0 := toUInt32_eq_some_iff.mpr ⟨rfl, by decide⟩
  have hstart : mulUInt32 0 2 = some 0 := mulUInt32_eq_some_iff.mpr ⟨rfl, by decide⟩
  have hlength32 : toUInt32 (text.length : ℤ) = some text.length :=
    toUInt32_eq_some_iff.mpr ⟨rfl, by omega⟩
  have hremoved : mulUInt32 text.length 2 = some (text.length * 2) :=
    mulUInt32_eq_some_iff.mpr ⟨rfl, by omega⟩
  have hcount32 : toUInt32 (characterCount breaks textStorage.string : ℤ) =
      some (characterCount breaks textStorage.string) := toUInt32_eq_some_iff.mpr ⟨rfl, by omega⟩
  have hadded : mulUInt32 (characterCount breaks textStorage.string) 2 =
      some (characterCount breaks textStorage.string * 2) :=
    mulUInt32_eq_some_iff.mpr ⟨rfl, by omega⟩
  obtain ⟨input, hinput, hinputLength⟩ : ∃ input,
      document.input.replaceCharactersInRange ⟨0, text.length⟩ textStorage.string = some input ∧
        input.length = some (2 * text.length) := by
    rw [Input.replaceCharactersInRange, hdata, Data.replaceCharactersInRange_utf16Data,
      if_pos (Nat.zero_add _).le, splice_all]
    refine ⟨_, rfl, ?_⟩
    rw [Input.length_eq_some_iff, Input.served, drop_utf16Data, length_utf16Data, length_utf16Bytes,
      hlength]
    omega
  obtain ⟨description, hdescription⟩ : ∃ description : TSInputEdit, description =
      { startByte := 0
        bytesRemoved := text.length * 2
        bytesAdded := characterCount breaks textStorage.string * 2
        startPoint := ⟨0, 0⟩
        extentRemoved := TSPoint.zero
        extentAdded := ⟨1, 0⟩ } := ⟨_, rfl⟩
  have hzero : description.startByte = 0 := by rw [hdescription]
  obtain ⟨next, root, hparse, -, hroot⟩ := @parseAndGetChangedRanges_edited parser
    { document with input := input } description _ hzero hinputLength
  obtain ⟨painted, hpainted, -⟩ := parse_eq_some hroot textStorage
  refine ⟨description, next, painted, ?_⟩
  rw [didProcessEditing]
  simp only [Option.bind_eq_bind]
  rw [hlocation, Option.bind_some, hstart, Option.bind_some, hlength32, Option.bind_some, hremoved,
    Option.bind_some, hcount32, Option.bind_some, hadded, Option.bind_some, hinput, Option.bind_some,
    ← hdescription, hparse, Option.bind_some, hpainted, Option.bind_some]

/-! ## Runs of edits -/

/-- An edit is a replacement in the text storage and a callback. -/
theorem editStep_eq_some_iff :
    editStep parser breaks before edit = some (description, after) ↔
      ∃ textStorage,
        before.textStorage.replaceCharacters edit.range edit.str edit.attributes =
          some textStorage ∧
        didProcessEditing parser breaks before.document textStorage
          ⟨edit.range.location, edit.str.length⟩ ((edit.str.length : ℤ) - edit.range.length) =
            some (description, after.document, after.textStorage) := by
  unfold editStep
  rw [Option.bind_eq_bind, Option.bind_eq_some_iff]
  refine exists_congr fun textStorage => and_congr_right fun _ => ?_
  rw [Option.bind_eq_bind, Option.bind_eq_some_iff]
  constructor
  · rintro ⟨⟨description', document, painted⟩, hresult, heq⟩
    rw [Option.some.injEq, Prod.mk.injEq] at heq
    obtain ⟨rfl, rfl⟩ := heq
    exact hresult
  · intro hresult
    exact ⟨_, hresult, rfl⟩

/-- The replacement of all of a text is the new text. -/
theorem ReplacesAll.splice_eq (h : ReplacesAll breaks before edit) :
    splice edit.range.location (edit.range.location + edit.range.length) edit.str
      before.textStorage.string = edit.str := by
  rw [h.location_eq, h.length_eq, splice_all]

/-- An edit that is answered in step replaces all of the text. -/
theorem replacesAll_of_inSync (h : Synced before)
    (hstep : editStep parser breaks before edit = some (description, after))
    (hsync : InSync before edit description after) : ReplacesAll breaks before edit := by
  obtain ⟨textStorage, hreplaced, hresult⟩ := editStep_eq_some_iff.mp hstep
  obtain ⟨hwithin, hstring⟩ := NSTextStorage.replaceCharacters_eq_some hreplaced
  obtain ⟨hle, hbound, hpainted, hdata, -, hremoved, hadded⟩ := didProcessEditing_eq_some h hresult
  have hnew := length_splice edit.str (Nat.le_add_right edit.range.location edit.range.length)
    hwithin
  have hremoved' := hsync.bytesRemoved_eq
  have hadded' := hsync.bytesAdded_eq
  have hdata' := hsync.data_eq
  simp only at hle hbound hremoved hdata
  rw [hremoved] at hremoved'
  rw [hadded] at hadded'
  rw [hdata, hpainted] at hdata'
  -- the two buffers have the same length only if the old one is all replaced
  have hlength := congrArg List.length hdata'
  rw [length_utf16Data, length_utf16Data, length_splice _ (Nat.le_add_right _ _) hle] at hlength
  rw [← hstring] at hnew
  have hlocation : edit.range.location = 0 := by omega
  have hrange : edit.range.length = before.textStorage.string.length := by omega
  have hall : textStorage.string = edit.str := by
    rw [hstring, hlocation, hrange, splice_all]
  refine ⟨hlocation, hrange, by omega, ?_, hbound⟩
  -- the characters of the whole text are reported as those of the replacement
  rw [← hall]
  omega

/-- An edit that replaces all of the text is answered in step. -/
theorem inSync_of_replacesAll (h : Synced before) (hall : ReplacesAll breaks before edit) :
    ∃ description after, editStep parser breaks before edit = some (description, after) ∧
      InSync before edit description after := by
  have hwithin : edit.range.location + edit.range.length ≤ before.textStorage.string.length := by
    rw [hall.location_eq, hall.length_eq, Nat.zero_add]
  obtain ⟨textStorage, hreplaced, hstring⟩ :=
    NSTextStorage.replaceCharacters_of_le edit.str edit.attributes hwithin
  have hnew : textStorage.string = edit.str := hstring.trans hall.splice_eq
  have hlength : textStorage.string.length = before.textStorage.string.length := by
    rw [hnew, hall.units_eq]
  obtain ⟨description, document, painted, hcallback⟩ :=
    @didProcessEditing_of_all parser breaks before.document textStorage _
      ((edit.str.length : ℤ) - edit.range.length) h hlength (hall.units_eq ▸ hall.bound)
  obtain ⟨-, -, hpainted, hdata, hstart, hremoved, hadded⟩ := didProcessEditing_eq_some h hcallback
  refine ⟨description, ⟨painted, document⟩, ?_, hpainted.trans hstring, ?_, ?_, ?_, ?_⟩
  · rw [← hall.units_eq, ← hall.location_eq] at hcallback
    exact editStep_eq_some_iff.mpr ⟨textStorage, hreplaced, hcallback⟩
  · rw [hdata, hpainted, splice_all]
  · rw [hstart, hall.location_eq]
  · rw [hremoved, hall.length_eq]
  · rw [hadded, hnew, hall.characters_eq]

/-- **Runs that stay in step**: when the document holds the text, every callback of a run completes and
leaves it in step exactly when every edit of the run replaces the whole text by as many units, each of
them a character. -/
theorem always_inSync_iff {textStorage : NSTextStorage} {document : Document} {edits : List TextEdit}
    (h : document.input.data = utf16Data textStorage.string) :
    Machine.Always (editStep parser breaks) InSync ⟨textStorage, document⟩ edits ↔
      Machine.Throughout (editStep parser breaks) (ReplacesAll breaks) ⟨textStorage, document⟩
        edits := by
  apply Machine.always_iff_throughout Synced
  · intro view edit hsynced
    constructor
    · rintro ⟨description, after, hstep, hsync⟩
      exact replacesAll_of_inSync hsynced hstep hsync
    · exact inSync_of_replacesAll hsynced
  · -- a callback that is in step leaves the document with the text
    intro view edit description after _ _ hsync
    exact hsync.data_eq
  · exact h

/-- A text storage with the text `1`. -/
def oneTextStorage : NSTextStorage := ⟨TextStorage.oneText, [⟨none, none⟩], rfl⟩

/-- The theorem on `1`, replaced by `2` and then by `3`. -/
theorem always_inSync_iff_one :
    Machine.Always (editStep numberParser fun _ _ => true) InSync
        ⟨oneTextStorage, TextStorage.oneStorage.document⟩
        [⟨⟨0, 1⟩, [0x32], ⟨none, none⟩⟩, ⟨⟨0, 1⟩, [0x33], ⟨none, none⟩⟩] ↔
      Machine.Throughout (editStep numberParser fun _ _ => true) (ReplacesAll fun _ _ => true)
        ⟨oneTextStorage, TextStorage.oneStorage.document⟩
        [⟨⟨0, 1⟩, [0x32], ⟨none, none⟩⟩, ⟨⟨0, 1⟩, [0x33], ⟨none, none⟩⟩] :=
  always_inSync_iff rfl

/-- The callback for `2` typed behind `1` traps. -/
theorem not_always_inSync_append :
    ¬ ∀ (parser : Parser) (breaks : GraphemeBreaks) (textStorage : NSTextStorage)
      (document : Document) (edit : TextEdit),
      document.input.data = utf16Data textStorage.string →
        edit.range.location + edit.range.length ≤ textStorage.string.length →
          Machine.Always (editStep parser breaks) InSync ⟨textStorage, document⟩ [edit] := by
  intro hall
  obtain ⟨description, after, hstep, -⟩ := hall numberParser (fun _ _ => true) oneTextStorage
    TextStorage.oneStorage.document ⟨⟨1, 0⟩, [0x32], ⟨none, none⟩⟩ rfl (by decide)
  have htrap : (editStep numberParser (fun _ _ => true)
      ⟨oneTextStorage, TextStorage.oneStorage.document⟩
      ⟨⟨1, 0⟩, [0x32], ⟨none, none⟩⟩).isSome = false := by decide +kernel
  rw [hstep] at htrap
  exact Bool.noConfusion htrap

end TextStorageDelegate

end TreeSitterTextStorage
