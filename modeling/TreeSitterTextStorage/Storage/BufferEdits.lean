import TreeSitterTextStorage.Storage.EditRuns

/-! # Runs of buffer edits

The buffer of a document under any number of edits. Every call of `replaceCharactersInRange` inside
the text shortens or lengthens the buffer by what the text becomes shorter or longer, so the calls of a
run follow the splices of the text one by one, whichever byte order the platform writes. -/

namespace TreeSitterTextStorage

open Splice

namespace Data

variable {order : ByteOrder} {mark : Data} {text : Text}

/-- **A run of buffer edits** inside the text leaves the byte-order mark and the bytes of the edited
text. -/
theorem foldlM_replaceCharactersUsing (hmark : mark.length = 2) {edits : List TextStorage.Edit}
    (hwithin : TextStorage.EditsWithin text edits) :
    edits.foldlM (fun data edit => replaceCharactersUsing order data edit.range edit.str)
      (mark ++ order.bytes text) =
        some (mark ++ order.bytes (TextStorage.finalText text edits)) := by
  induction edits generalizing text with
  | nil => rfl
  | cons edit rest ih =>
      -- the edit leaves the buffer of the spliced text, from which the others go on
      obtain ⟨hedit, hrest⟩ := hwithin
      rw [List.foldlM_cons, replaceCharactersUsing_marked order hmark, if_pos hedit,
        Option.bind_eq_bind, Option.bind_some]
      exact ih hrest

/-- **The buffer edit is an exact splice.** On a mark of two bytes and the units of a text, an edit
inside the text keeps the mark, the units in front of the range and the units behind it, and puts the
units of the replacement between; a run of edits, each inside the text that the ones before it leave,
has the mark and the text of the same splices. -/
theorem replaceCharactersUsing_splices (order : ByteOrder) (hmark : mark.length = 2) (text : Text) :
    (∀ (range : NSRange) (replacementText : Text), range.location + range.length ≤ text.length →
      replaceCharactersUsing order (mark ++ order.bytes text) range replacementText =
        some (mark ++ order.bytes (text.take range.location ++ replacementText ++
          text.drop (range.location + range.length)))) ∧
    ∀ edits : List TextStorage.Edit, TextStorage.EditsWithin text edits →
      edits.foldlM (fun data edit => replaceCharactersUsing order data edit.range edit.str)
        (mark ++ order.bytes text) =
          some (mark ++ order.bytes (TextStorage.finalText text edits)) := by
  constructor
  · intro range replacementText hwithin
    rw [replaceCharactersUsing_marked order hmark, if_pos hwithin, splice]
  · exact fun edits => foldlM_replaceCharactersUsing hmark

/-- The big-endian buffer of "hi", which becomes "hello", then "" and then "h". -/
theorem replaceCharactersUsing_splices_hi :
    replaceCharactersUsing .bigEndian ([0xFE, 0xFF] ++ ByteOrder.bigEndian.bytes [104, 105]) ⟨1, 1⟩
      [101, 108, 108, 111] =
        some ([0xFE, 0xFF] ++ ByteOrder.bigEndian.bytes [104, 101, 108, 108, 111]) ∧
    [⟨⟨1, 1⟩, [101, 108, 108, 111]⟩, ⟨⟨0, 5⟩, []⟩, ⟨⟨0, 0⟩, [104]⟩].foldlM
      (fun data (edit : TextStorage.Edit) =>
        replaceCharactersUsing .bigEndian data edit.range edit.str)
      ([0xFE, 0xFF] ++ ByteOrder.bigEndian.bytes [104, 105]) =
        some ([0xFE, 0xFF] ++ ByteOrder.bigEndian.bytes [104]) :=
  have hsplices := @replaceCharactersUsing_splices [0xFE, 0xFF] .bigEndian rfl [104, 105]
  ⟨hsplices.1 ⟨1, 1⟩ [101, 108, 108, 111] (by decide),
    hsplices.2 _ ⟨by decide, by decide, by decide, trivial⟩⟩

end Data

end TreeSitterTextStorage
