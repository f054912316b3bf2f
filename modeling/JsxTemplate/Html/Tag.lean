/-!
# Tags and their attributes

The tables of tags that the compiler treats apart: tags of vector graphics, tags without content, and
the tags on which an attribute has to be set in a way of its own.
-/

namespace JsxTemplate.Html

def svgTags : List String :=
  ["svg", "animate", "animateMotion", "animateTransform", "circle", "clipPath", "color-profile",
    "defs", "desc", "discard", "ellipse", "feBlend", "feColorMatrix", "feComponentTransfer",
    "feComposite", "feConvolveMatrix", "feDiffuseLighting", "feDisplacementMap", "feDistantLight",
    "feDropShadow", "feFlood", "feFuncA", "feFuncB", "feFuncG", "feFuncR", "feGaussianBlur",
    "feImage", "feMerge", "feMergeNode", "feMorphology", "feOffset", "fePointLight",
    "feSpecularLighting", "feSpotLight", "feTile", "feTurbulence", "filter", "foreignObject", "g",
    "hatch", "hatchpath", "image", "line", "linearGradient", "marker", "mask", "mesh",
    "meshgradient", "meshpatch", "meshrow", "metadata", "mpath", "path", "pattern", "polygon",
    "polyline", "radialGradient", "rect", "set", "solidcolor", "stop", "switch", "symbol", "text",
    "textPath", "tspan", "unknown", "use", "view"]

def voidTags : List String :=
  ["area", "base", "br", "col", "embed", "hr", "img", "input", "link", "meta", "param", "source",
    "track", "wbr"]

def isSvgTag (tag : String) : Bool :=
  svgTags.contains tag

def isVoidTag (tag : String) : Bool :=
  voidTags.contains tag

/-- Whether `value` can be assigned to an element as a property: not to a gauge, whose property does
not read back what was written, nor to a custom element. -/
def canSetValueDirectly (tag : String) : Bool :=
  tag != "progress" && tag != "meter" && !tag.toList.contains '-'

/-- Whether a key is written as an attribute although the element has a property of that name. -/
def mustSetAsAttribute (tag key : String) : Bool :=
  match key with
  | "spellcheck" | "draggable" | "translate" | "autocorrect" | "form" => true
  | "list" => tag == "input"
  | "type" => tag == "textarea"
  | "width" | "height" => ["img", "video", "canvas", "source"].contains tag
  | _ => false

end JsxTemplate.Html
