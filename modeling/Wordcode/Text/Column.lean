/-!
# Columns

Texts set in columns: filled up with blanks to a width, and left as they are where they are wider.
-/

namespace Wordcode

/-- The text at the right edge of a column. -/
def alignRight (width : Nat) (text : String) : String :=
  String.ofList (text.toList.leftpad width ' ')

/-- The text at the left edge of a column. -/
def alignLeft (width : Nat) (text : String) : String :=
  String.ofList (text.toList.rightpad width ' ')

@[simp] theorem toList_alignRight (width : Nat) (text : String) :
    (alignRight width text).toList =
      List.replicate (width - text.length) ' ' ++ text.toList := by
  simp [alignRight, List.leftpad, String.length_toList]

@[simp] theorem toList_alignLeft (width : Nat) (text : String) :
    (alignLeft width text).toList =
      text.toList ++ List.replicate (width - text.length) ' ' := by
  simp [alignLeft, List.rightpad, String.length_toList]

end Wordcode
