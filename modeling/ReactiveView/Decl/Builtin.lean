/-!
# Built-in elements

The names of the elements that every module can use.
-/

namespace ReactiveView.Builtin

def containers : List String :=
  ["Column", "Row", "Stack", "Flex", "Grid", "GridItem", "GridRow", "GridCol", "List", "ListItem",
   "Scroll", "Swiper", "Tabs", "TabContent", "Navigator", "RelativeContainer", "Button"]

def atoms : List String :=
  ["Text", "Image", "TextInput", "TextArea", "Toggle", "Checkbox", "Radio", "Slider", "Progress",
   "Divider", "Blank", "Span", "Select", "DatePicker", "TimePicker", "LoadingProgress"]

def controls : List String := ["If", "ForEach", "LazyForEach"]

def conditional : String := "If"

def loop : String := "ForEach"

def isElement (name : String) : Bool :=
  containers.contains name || atoms.contains name || controls.contains name

def isContainer (name : String) : Bool := containers.contains name || controls.contains name

end ReactiveView.Builtin
