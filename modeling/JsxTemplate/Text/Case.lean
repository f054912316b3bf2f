/-!
# Upper and lower case in names

Names of attributes and events come in kebab case (`foo-bar`), camel case (`fooBar`) and as handler
keys (`onFooBar`). Only the letters of ASCII have a case here.
-/

namespace JsxTemplate.Text

/-- Drop the hyphens and raise the letter after each; `raise` says that a hyphen has just been
dropped. A hyphen with nothing after it stays. -/
def camelizeFrom : Bool → List Char → List Char
  | raise, [] => if raise then ['-'] else []
  | raise, c :: cs =>
    if c == '-' then camelizeFrom true cs
    else (if raise then c.toUpper else c) :: camelizeFrom false cs

/-- Kebab case to camel case: `foo-bar` becomes `fooBar`. -/
def camelize (s : String) : String :=
  String.ofList (camelizeFrom false s.toList)

def mapHead (f : Char → Char) (s : String) : String :=
  match s.toList with
  | [] => ""
  | c :: cs => String.ofList (f c :: cs)

/-- Raise the first letter: `foo` becomes `Foo`. -/
def capitalize (s : String) : String :=
  mapHead Char.toUpper s

/-- Lower the first letter: `Click` becomes `click`. -/
def uncapitalize (s : String) : String :=
  mapHead Char.toLower s

def lowercase (s : String) : String :=
  String.ofList (s.toList.map Char.toLower)

/-- The prop under which a component receives the handler of an event: `click` becomes
`onClick`. -/
def handlerKey (event : String) : String :=
  "on" ++ capitalize event

end JsxTemplate.Text
