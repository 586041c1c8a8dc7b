/-!
Lists in text: the items with a comma and a blank between them.
-/

namespace Monkey.Text

def commaSeparated : List String → String
  | [] => ""
  | [item] => item
  | item :: items => item ++ ", " ++ commaSeparated items

end Monkey.Text
