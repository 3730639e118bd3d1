import Determinize.States.Basic

/-!
# The text of a set of states

A set is written in braces, its members in ascending order: on one line as `{1, 3}`
(`States.text`), or with a line for each member (`States.block`).
-/

namespace Determinize

namespace States

/-- The members between braces, with a comma and a blank between any two. -/
def text (S : States) : String :=
  "\x7b" ++ ", ".intercalate (S.toList.map toString) ++ "\x7d"

/-- The braces and every member on a line of its own, members indented by four blanks and followed
by a comma; the empty set stays on one line. -/
def block (S : States) : String :=
  if S.isEmpty then "\x7b\x7d"
  else "\x7b\n" ++ String.join (S.toList.map fun a => "    " ++ toString a ++ ",\n") ++ "\x7d"

instance : ToString States := ⟨text⟩

end States

end Determinize
