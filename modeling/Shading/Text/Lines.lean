/-
  The lines of a text.
-/
import Shading.Text.Blank

namespace Shading.Text

/-- The lines of `s` as far as its last character that is not blank, each
    without the blanks at its end. -/
def trimmedLines (s : String) : List String :=
  match dropBlankEnd s.toList with
  | [] => []
  | cs => (cs.splitOn '\n').map fun line => String.ofList (dropBlankEnd line)

/-- The text `s` with `margin` blanks in front of each line after the first. -/
def indentTail (margin : Nat) (s : String) : String :=
  String.ofList (('\n' :: List.replicate margin ' ').intercalate (s.toList.splitOn '\n'))

end Shading.Text
