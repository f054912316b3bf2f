import JsxTemplate.Text.Case

/-!
# Events

The events that bubble, which one listener at the root can serve for all elements, and the events of
the keyboard.
-/

namespace JsxTemplate.Html

/-- The events served by a single listener at the root. -/
def delegatedEvents : List String :=
  ["beforeinput", "click", "dblclick", "contextmenu", "focusin", "focusout", "input", "keydown",
    "keyup", "mousedown", "mousemove", "mouseout", "mouseover", "mouseup", "pointerdown",
    "pointermove", "pointerout", "pointerover", "pointerup", "touchend", "touchmove", "touchstart"]

def isDelegatedEvent (event : String) : Bool :=
  delegatedEvents.contains event

/-- Whether an event comes from the keyboard, in whatever case its name is written. -/
def isKeyboardEvent (event : String) : Bool :=
  ["keyup", "keydown", "keypress"].contains (Text.lowercase event)

end JsxTemplate.Html
