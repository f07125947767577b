import ReturnCaptures.Text.Escape

/-!
# Displays

What a run tells is shown on a display, text by text.  A terminal shows every text as it is,
and acts on the control sequences in it; any other display drops them.
-/

namespace ReturnCaptures

/-- A display, by what it shows of a text. -/
structure Display where
  shown : String → String

namespace Display

/-- A display is faithful if it shows a text as it is whenever no escape character stands in
it, with which control sequences start. -/
structure IsFaithful (display : Display) : Prop where
  shown_eq : ∀ text, '\x1b' ∉ text.toList → display.shown text = text

/-- The display that drops control sequences. -/
def plain : Display := ⟨fun text => String.ofList (Escape.strip text.toList)⟩

theorem isFaithful_plain :
  plain.IsFaithful
  := by
  constructor
  intro text h
  change String.ofList (Escape.strip text.toList) = text
  rw [Escape.strip_eq_self h, String.ofList_toList]

end Display

end ReturnCaptures
