import SdlGraph.Text.Combining
import SdlGraph.Text.Hexadecimal
import SdlGraph.Text.Unprintable

/-!
# Quotations of text in messages

A quotation stands between double quotes. The quote and the backslash are escaped, four controls
have an escape of one letter, and a character without a visible form, or one that would attach to
the character before it, is spelled by its number in hexadecimal.
-/

namespace SdlGraph.Text

/-- The form of one character inside a quotation. -/
def quoteChar (c : Char) : String :=
  match c with
  | '\x00' => "\\0"
  | '\t' => "\\t"
  | '\r' => "\\r"
  | '\n' => "\\n"
  | '"' => "\\\""
  | '\\' => "\\\\"
  | c =>
    if isCombining c || isUnprintable c then "\\u\x7b" ++ hexadecimal c.toNat ++ "\x7d"
    else c.toString

/-- The quotation of a text. -/
def quote (text : String) : String :=
  "\"" ++ String.join (text.toList.map quoteChar) ++ "\""

end SdlGraph.Text
