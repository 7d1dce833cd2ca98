/-!
# Colours

A paint surrounds a text with the escape sequences that switch it on and off. A line break inside
the text switches it off and on again, and an empty text stays empty. Without colours every text
stays as it is.
-/

namespace ClassCohesion.Report

inductive Paint where
  | plain
  | bold
  | red
  | redBold
  | green
  | yellow
  | cyan
  | cyanBold
  | white
  | gray
deriving DecidableEq, Repr

namespace Paint

def escape (code : String) : String := "\x1b[" ++ code ++ "m"

def opening : Paint → String
  | plain => ""
  | bold => escape "1"
  | red => escape "31"
  | redBold => escape "31" ++ escape "1"
  | green => escape "32"
  | yellow => escape "33"
  | cyan => escape "36"
  | cyanBold => escape "36" ++ escape "1"
  | white => escape "37"
  | gray => escape "90"

def closing : Paint → String
  | plain => ""
  | bold => escape "22"
  | redBold => escape "22" ++ escape "39"
  | cyanBold => escape "22" ++ escape "39"
  | _ => escape "39"

/-- A text with a paint switched off before every line break and on behind it. -/
def aroundBreaks (opens closes : List Char) : List Char → List Char
  | [] => []
  | '\r' :: '\n' :: cs => closes ++ '\r' :: '\n' :: opens ++ aroundBreaks opens closes cs
  | '\n' :: cs => closes ++ '\n' :: opens ++ aroundBreaks opens closes cs
  | c :: cs => c :: aroundBreaks opens closes cs

def apply (p : Paint) (colors : Bool) (s : String) : String :=
  if colors = false ∨ s = "" then s
  else
    let body := aroundBreaks p.opening.toList p.closing.toList s.toList
    p.opening ++ String.ofList body ++ p.closing

end Paint

end ClassCohesion.Report
