-- SUMMARY: The categories of localized keywords, with their names and labels.
import BanglaSource.Text

/-!
# Keyword categories

Categories group the keywords for listings and highlighting. The label is the
name with spaces for underscores.
-/
namespace BanglaSource

/-- The group to which a keyword belongs. -/
inductive Category where
  | declaration
  | function
  | conditional
  | loop
  | objectModel
  | console
  | literal
  | exception
  | async
  | switch
  | modules
  | membership
  | operator
  | debugging
  | dialog
  | arrayMethod
  | stringMethod
  | math
  | json
  | dom
  | event
  | logic
  | comparison
deriving DecidableEq, Repr

namespace Category

/-- Every category, in listing order. -/
def all : List Category :=
  [ declaration, function, conditional, loop, objectModel, console, literal, exception, async,
    switch, modules, membership, operator, debugging, dialog, arrayMethod, stringMethod, math,
    json, dom, event, logic, comparison ]

def label : Category → Text
  | declaration => "declaration"
  | function => "function"
  | conditional => "conditional"
  | loop => "loop"
  | objectModel => "object model"
  | console => "console"
  | literal => "literal"
  | exception => "exception"
  | async => "async"
  | switch => "switch"
  | modules => "module"
  | membership => "membership"
  | operator => "operator"
  | debugging => "debugging"
  | dialog => "dialog"
  | arrayMethod => "array method"
  | stringMethod => "string method"
  | math => "math"
  | json => "json"
  | dom => "dom"
  | event => "event"
  | logic => "logic"
  | comparison => "comparison"

/-- The name that data files use. -/
def name (c : Category) : Text :=
  c.label.map fun x => if x = ' ' then '_' else x

/-- The category with the given name. Names are case-sensitive. -/
def ofName? (s : Text) : Option Category :=
  all.find? (·.name = s)

end Category
end BanglaSource
