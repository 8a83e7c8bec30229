/-!
# Markup

Texts with styles: `[bold]…[/bold]` sets a part in bold. A bracket that opens no tag is written
behind a backslash. What remains without the tags is `plainText`, and the markup of a plain text
reads back as that text (`plainText_escapeMarkup`).
-/

namespace Wordcode

/-- The markup of a plain text. -/
def escapeMarkup (text : String) : String :=
  String.ofList (text.toList.flatMap fun c => if c = '[' then ['\\', '['] else [c])

/-- A marked-up text set in a style. -/
def styled (style text : String) : String :=
  "[" ++ style ++ "]" ++ text ++ "[/" ++ style ++ "]"

/-- What a marked-up text shows. The flag tells whether the text begins inside a tag. -/
def plainText (inTag : Bool) : List Char → List Char
  | [] => []
  | '\\' :: '[' :: text => if inTag then plainText true text else '[' :: plainText false text
  | c :: text =>
    if inTag then plainText (c ≠ ']') text
    else if c = '[' then plainText true text
    else c :: plainText false text

@[simp] theorem toList_escapeMarkup (text : String) :
    (escapeMarkup text).toList =
      text.toList.flatMap fun c => if c = '[' then ['\\', '['] else [c] := by
  simp [escapeMarkup]

/-- The markup of a plain text shows that text. -/
theorem plainText_escapeMarkup (text : String) :
    plainText false (escapeMarkup text).toList = text.toList := by
  rw [toList_escapeMarkup]
  induction text.toList with
  | nil => rfl
  | cons c l ih =>
    by_cases hc : c = '['
    · subst hc
      simp [plainText, ih]
    · rw [List.flatMap_cons, if_neg hc, List.singleton_append]
      -- the rest does not begin with a bracket, so a backslash in front stands for itself
      rw [plainText]
      · simp [hc, ih]
      · rintro rest rfl h
        cases l with
        | nil => simp at h
        | cons d l =>
          by_cases hd : d = '['
          · simp [hd] at h
          · simp [hd] at h

end Wordcode
