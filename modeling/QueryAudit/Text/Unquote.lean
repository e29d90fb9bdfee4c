/-!
# QueryAudit.Text.Unquote

Removing one pair of quotes around a text.

* `unquoteChars_quotes` — a pair of equal quotes is removed, whatever stands in it.
-/

namespace QueryAudit

/-- The characters between a pair of equal quotes, or all of them when the text
is not in such a pair. -/
def unquoteChars (cs : List Char) : List Char :=
  match cs with
  | [] => []
  | quote :: rest =>
    if (quote == '"' || quote == '\'') && rest.getLast? == some quote then rest.dropLast
    else cs

/-- A text without the pair of equal quotes around it, if there is one. -/
def unquote (s : String) : String :=
  String.ofList (unquoteChars s.toList)

/-- One pair of equal quotes is removed, and no more. -/
theorem unquoteChars_quotes {quote : Char} (h : quote = '"' ∨ quote = '\'') (cs : List Char) :
    unquoteChars (quote :: cs ++ [quote]) = cs := by
  rcases h with rfl | rfl <;> simp [unquoteChars]

end QueryAudit
