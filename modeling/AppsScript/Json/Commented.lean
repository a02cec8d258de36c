import AppsScript.Source.Comment
import AppsScript.Text.Blank

/-!
# JSON with comments

Configuration files may hold comments, and a comma behind the last element of an array or object.
`plain` takes both away.
-/

namespace AppsScript.Json

/-- Whether the first character that is not white space closes an array or object. -/
def closesNext (text : Text) : Bool :=
  (Text.trimStart text).head?.any fun c => c == '\x7d' || c == ']'

/-- `dropTrailingCommas` from the middle of a text, maybe inside a string. -/
def dropCommasFrom : (inString : Bool) → Text → Text
  | _, [] => []
  | true, '\\' :: c :: cs => '\\' :: c :: dropCommasFrom true cs
  | true, c :: cs => c :: dropCommasFrom (c != '"') cs
  | false, ',' :: cs =>
    if closesNext cs then dropCommasFrom false cs else ',' :: dropCommasFrom false cs
  | false, c :: cs => c :: dropCommasFrom (c == '"') cs

/-- The text without the commas outside strings that only white space separates from a closing
bracket. -/
def dropTrailingCommas (text : Text) : Text := dropCommasFrom false text

/-- The plain JSON text of a configuration file. -/
def plain (text : Text) : Text := dropTrailingCommas (Source.strip text)

end AppsScript.Json
