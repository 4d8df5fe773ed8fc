import Terse.Text.Grapheme

namespace Terse.Text

/-- The whole text, then its proper suffixes by rising length; the empty text has none. -/
def suffixes (s : String) : List String :=
  let clusters := graphemes s
  let proper := (List.range (clusters.length - 1)).map fun i =>
    String.join (clusters.drop (clusters.length - (i + 1)))
  if clusters.isEmpty then [] else s :: proper

end Terse.Text
