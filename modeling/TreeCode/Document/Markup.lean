import TreeCode.Document.Pairs

/-!
# Markup

`Markup` is what a node and all below it show: texts and elements, without the numbers by which a
document knows them. `Markup.html` writes it with the characters escaped that could be taken for
markup; tags and the keys of attributes are written as they are.
-/

namespace TreeCode

/-- What a node and all below it show. -/
inductive Markup where
  | text (content : String)
  | element (tag : String) (attributes style : Pairs) (children : List Markup)

namespace Markup

def escapeChar : Char → List Char
  | '&' => "&amp;".toList
  | '<' => "&lt;".toList
  | '>' => "&gt;".toList
  | '\"' => "&quot;".toList
  | c => [c]

def escape (s : String) : String := String.ofList (s.toList.flatMap escapeChar)

def attributeHtml (pair : String × String) : String :=
  " " ++ pair.1 ++ "=\"" ++ escape pair.2 ++ "\""

def propertyHtml (pair : String × String) : String :=
  escape pair.1 ++ ": " ++ escape pair.2 ++ ";"

def styleHtml (style : Pairs) : String :=
  if style = [] then "" else " style=\"" ++ String.join (style.map propertyHtml) ++ "\""

def openTag (tag : String) (attributes style : Pairs) : String :=
  "<" ++ tag ++ String.join (attributes.map attributeHtml) ++ styleHtml style ++ ">"

mutual

def html : Markup → String
  | text content => escape content
  | element tag attributes style children =>
    openTag tag attributes style ++ htmlAll children ++ "</" ++ tag ++ ">"

def htmlAll : List Markup → String
  | [] => ""
  | m :: rest => m.html ++ htmlAll rest

end

mutual

def content : Markup → String
  | text content => content
  | element _ _ _ children => contentAll children

def contentAll : List Markup → String
  | [] => ""
  | m :: rest => m.content ++ contentAll rest

end

end Markup

end TreeCode
