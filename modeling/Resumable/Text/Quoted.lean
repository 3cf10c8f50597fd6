import Resumable.Text.Unseen

namespace Resumable.Text

/-- The written form of one character inside quotes. -/
def escape (c : Char) : String :=
  match c with
  | '"' => "\\\""
  | '\\' => "\\\\"
  | '\n' => "\\n"
  | '\r' => "\\r"
  | '\t' => "\\t"
  | '\x00' => "\\0"
  | c =>
    if isUnseen c then
      "\\u\x7b" ++ String.ofList (Nat.toDigits 16 c.toNat) ++ "\x7d"
    else c.toString

/-- The text between quotes, character by character. -/
def quote (s : String) : String :=
  "\"" ++ s.toList.foldl (fun out c => out ++ escape c) "" ++ "\""

end Resumable.Text
