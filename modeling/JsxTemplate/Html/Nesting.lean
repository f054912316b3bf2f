/-!
# Which element may stand inside which

A browser that reads markup moves an element out of a parent in which it must not stand. Such a child
cannot be part of its parent's markup.
-/

namespace JsxTemplate.Html

/-- For a tag that takes only some children, the tags of these. -/
def onlyChildren? (parent : String) : Option (List String) :=
  match parent with
  | "head" =>
    some ["base", "basefront", "bgsound", "link", "meta", "title", "noscript", "noframes", "style",
      "script", "template"]
  | "optgroup" => some ["option"]
  | "select" => some ["optgroup", "option", "hr"]
  | "table" => some ["caption", "colgroup", "tbody", "tfoot", "thead"]
  | "tr" => some ["td", "th"]
  | "colgroup" => some ["col"]
  | "tbody" | "thead" | "tfoot" => some ["tr"]
  | "script" | "iframe" | "option" | "textarea" | "style" | "title" => some []
  | _ => none

/-- The tags that must not stand directly inside `parent`. -/
def forbiddenChildren (parent : String) : List String :=
  match parent with
  | "p" =>
    ["address", "article", "aside", "blockquote", "center", "details", "dialog", "dir", "div", "dl",
      "fieldset", "figure", "footer", "form", "h1", "h2", "h3", "h4", "h5", "h6", "header", "hgroup",
      "hr", "li", "main", "nav", "menu", "ol", "p", "pre", "section", "table", "ul"]
  | "svg" =>
    ["b", "blockquote", "br", "code", "dd", "div", "dl", "dt", "em", "embed", "h1", "h2", "h3", "h4",
      "h5", "h6", "hr", "i", "img", "li", "menu", "meta", "ol", "p", "pre", "ruby", "s", "small",
      "span", "strong", "sub", "sup", "table", "u", "ul", "var"]
  | _ => []

/-- The tags that must not stand directly inside themselves. -/
def selfForbidding : List String :=
  ["a", "button", "form", "label", "dfn", "li", "dd", "dt"]

def isValidNesting (parent child : String) : Bool :=
  match onlyChildren? parent with
  | some allowed => allowed.contains child
  | none =>
    !(forbiddenChildren parent).contains child && !(parent == child && selfForbidding.contains child)

end JsxTemplate.Html
