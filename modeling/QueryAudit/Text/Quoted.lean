import QueryAudit.Text.Printable

/-!
# QueryAudit.Text.Quoted

A text in quotes on one line, as messages show it: quotes, backslashes and line
breaks are escaped, and so is each character that would not be seen.

* `quoteChar_of_plain` — a printable character other than `"` and `\\` stands
  for itself.
-/

namespace QueryAudit

/-- The form of one character inside quotes. -/
def quoteChar (c : Char) : List Char :=
  if c = '\x00' then ['\\', '0']
  else if c = '\t' then ['\\', 't']
  else if c = '\r' then ['\\', 'r']
  else if c = '\n' then ['\\', 'n']
  else if c = '"' then ['\\', '"']
  else if c = '\\' then ['\\', '\\']
  else if isPrintable c then [c]
  else ['\\', 'u', '\x7b'] ++ Nat.toDigits 16 c.toNat ++ ['\x7d']

/-- A text in quotes, escaped so that it can be read in a message. -/
def quoted (s : String) : String :=
  String.ofList ('"' :: s.toList.flatMap quoteChar ++ ['"'])

/-- A printable ASCII character other than the quote and the backslash stands for itself. -/
theorem quoteChar_of_plain {c : Char} (low : 0x20 ≤ c.toNat) (high : c.toNat ≤ 0x7E)
    (quote : c ≠ '"') (backslash : c ≠ '\\') : quoteChar c = [c] := by
  have ne (d : Char) (hd : d.toNat < 0x20) : c ≠ d := fun h => by subst h; omega
  simp [quoteChar, ne '\x00' (by decide), ne '\t' (by decide), ne '\r' (by decide),
    ne '\n' (by decide), quote, backslash, isPrintable_of_ascii low high]

end QueryAudit
