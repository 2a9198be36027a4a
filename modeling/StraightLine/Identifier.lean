/-!
# Identifiers — which names can be written in a program

An identifier is a word over ASCII letters, digits and `_` that does not start with a digit.
Programs built by hand may use any text as a name; only identifiers can be written and read back.
-/

namespace StraightLine

namespace Identifier

/-- The characters that may open a word. -/
def opens (c : Char) : Bool :=
  c.isAlpha || c == '_'

/-- The characters that may stand anywhere after the first. -/
def continues (c : Char) : Bool :=
  c.isAlphanum || c == '_'

theorem continues_of_opens {c : Char} (h : opens c = true) : continues c = true := by
  simp only [opens, Bool.or_eq_true] at h
  simp only [continues, Char.isAlphanum, Bool.or_eq_true]
  rcases h with h | h
  · exact Or.inl (Or.inl h)
  · exact Or.inr h

end Identifier

/-- Whether `name` is a word that a program text can hold where a name is expected. -/
def isIdentifier (name : String) : Bool :=
  match name.toList with
  | [] => false
  | c :: rest => Identifier.opens c && rest.all Identifier.continues

end StraightLine
