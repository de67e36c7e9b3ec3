/-!
# Upper case of names

Names of types are looked up by their upper-case form, which is made of ASCII letters. Beside the
ASCII letters themselves a few characters have such a form: the dotless i, the long and the sharp
s, and the Latin ligatures. Every other character has an upper-case form outside ASCII, where no
name can match it, and is left as it is.
-/

namespace QueryEngine.Text

/-- The upper-case form of a character, when it is made of ASCII characters, and otherwise the
character itself. -/
def upperCase (c : Char) : List Char :=
  match c with
  | 'ß' => ['S', 'S']
  | 'ı' => ['I']
  | 'ſ' => ['S']
  | 'ﬀ' => ['F', 'F']
  | 'ﬁ' => ['F', 'I']
  | 'ﬂ' => ['F', 'L']
  | 'ﬃ' => ['F', 'F', 'I']
  | 'ﬄ' => ['F', 'F', 'L']
  | 'ﬅ' => ['S', 'T']
  | 'ﬆ' => ['S', 'T']
  | c => [c.toUpper]

/-- The upper-case form of a name. -/
def toUpperCase (name : String) : String := String.ofList (name.toList.flatMap upperCase)

end QueryEngine.Text
