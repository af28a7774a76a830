/-
WebSocket/Text/Escaped.lean

Texts of unknown origin as they are quoted in error messages: between double
quotes, with a backslash in front of quotes and backslashes, and with an escape
for whatever would not show.
-/
import WebSocket.Text.Printable

namespace WebSocket.Text.Escaped

/-- One character inside the quotes. -/
def escape (c : Char) : List Char :=
  match c with
  | '"' => ['\\', '"']
  | '\\' => ['\\', '\\']
  | '\t' => ['\\', 't']
  | '\r' => ['\\', 'r']
  | '\n' => ['\\', 'n']
  | '\x00' => ['\\', '0']
  | c =>
    if isPrintable c then [c]
    else ['\\', 'u', '\x7b'] ++ Nat.toDigits 16 c.toNat ++ ['\x7d']

/-- A text in double quotes. -/
def quote (s : String) : String :=
  String.ofList ('"' :: s.toList.flatMap escape ++ ['"'])

end WebSocket.Text.Escaped
