/-! # Markup

Text as it stands on a page: the characters that have a meaning in markup are written as references.
-/

namespace PineEngine.Text

def escapeMarkup (c : Char) : String :=
  match c with
  | '&' => "&amp;"
  | '<' => "&lt;"
  | '>' => "&gt;"
  | '"' => "&#34;"
  | '\'' => "&#39;"
  | c => String.singleton c

def markup (s : String) : String :=
  String.join (s.toList.map escapeMarkup)

end PineEngine.Text
