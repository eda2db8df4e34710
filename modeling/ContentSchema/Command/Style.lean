/-!
Colours on a terminal.
-/
namespace ContentSchema

inductive Style where
  | heading | good | note | mark
deriving DecidableEq

namespace Style

def start : Style → String
  | heading => "\x1b[1;32m"
  | good => "\x1b[32m"
  | note => "\x1b[33m"
  | mark => "\x1b[36m"

def stop : String := "\x1b[0m"

/-- The text in the style. A stop within the text would end the style, so the style starts again
behind it. -/
def paint (style : Style) (color : Bool) (text : String) : String :=
  if color then
    style.start ++ (stop ++ style.start).intercalate (text.splitOn stop) ++ stop
  else text

end Style

end ContentSchema
