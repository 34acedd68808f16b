/-!
# Filling and aligning

Small texts that listings are laid out with.
-/

namespace ExprLang.Text

/-- So many copies of a character. -/
def repeated (n : Nat) (c : Char) : String :=
  String.ofList (List.replicate n c)

@[simp] theorem length_repeated (n : Nat) (c : Char) : (repeated n c).length = n := by
  simp [repeated]

/-- A text filled up with spaces on the right to a width. -/
def padRight (width : Nat) (text : String) : String :=
  text ++ repeated (width - text.length) ' '

/-- A text that is too wide stays as it is. -/
theorem length_padRight (width : Nat) (text : String) :
    (padRight width text).length = max width text.length := by
  simp only [padRight, String.length_append, length_repeated]
  omega

end ExprLang.Text
