/-!
# Escaping in markup

What has to be replaced by a character reference when a text is put into markup, between the tags or
inside an attribute value in double quotes.
-/

namespace JsxTemplate.Html

/-- One character of an attribute value in double quotes. -/
def escapeAttrChar (c : Char) : List Char :=
  if c == '"' then "&quot;".toList else if c == '&' then "&amp;".toList else [c]

def escapeTextChar (c : Char) : List Char :=
  if c == '<' then "&lt;".toList else if c == '>' then "&gt;".toList else [c]

def escapeAttr (s : String) : String :=
  String.ofList (s.toList.flatMap escapeAttrChar)

def escapeText (s : String) : String :=
  String.ofList (s.toList.flatMap escapeTextChar)

end JsxTemplate.Html
