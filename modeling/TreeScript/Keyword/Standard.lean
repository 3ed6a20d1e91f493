import TreeScript.Keyword.Files
import TreeScript.Keyword.Flow
import TreeScript.Keyword.Widgets

/-!
# TreeScript — the standard keywords

* `Keyword.standard` — the keywords with their handlers;
* `Registry.standard` — a registry that has them.
-/

namespace TreeScript

/-- The standard keywords. -/
def Keyword.standard : List (String × Handler) :=
  [("eval", Keyword.eval), ("eval-mutable", Keyword.evalMutable), ("return", Keyword.returnValue),
    ("break", Keyword.breakLoop), ("continue", Keyword.continueLoop), ("for-each", Keyword.forEach),
    ("get-widget-property", Keyword.getProperty), ("set-widget-property", Keyword.setProperty),
    ("delete-widget-property", Keyword.deleteProperty),
    ("list-widget-properties", Keyword.listProperties),
    ("load-file", Keyword.loadFile), ("save-file", Keyword.saveFile)]

/-- A registry with handlers, each behind those of the same name before it. -/
def Registry.ofList (unknown : UnknownEvents) (handlers : List (String × Handler)) : Registry :=
  handlers.foldl (fun r (name, handler) => r.register name handler) { unknown }

/-- A registry with the standard keywords. -/
def Registry.standard (unknown : UnknownEvents) : Registry := ofList unknown Keyword.standard

end TreeScript
