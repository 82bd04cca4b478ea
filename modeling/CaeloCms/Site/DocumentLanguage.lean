import CaeloCms.Lib.HtmlTokens
import CaeloCms.Redirect.Chain

/-!
# The language of a document

`applyDocumentLanguage` sets the `lang` of the `<html>` start tag.  It finds the tag by its letters and scans its
attributes once; a document without the tag gets one behind its doctype.
-/

namespace CaeloCms.Site

def isHtmlSpace (c : Char) : Bool := c = '\t' || c = '\n' || c = '\x0c' || c = '\r' || c = ' '

/-! ### The scan of the tag -/

/-- The value of an attribute and what follows it; nothing if a quote is not closed. -/
def skipValue (text : List Char) : Option (List Char × List Char) :=
  let spaces := text.takeWhile isHtmlSpace
  let rest := text.dropWhile isHtmlSpace
  if rest.head? = some '=' then
    let spaces' := rest.tail.takeWhile isHtmlSpace
    match rest.tail.dropWhile isHtmlSpace with
    | [] => some (spaces ++ '=' :: spaces', [])
    | quote :: value =>
      if quote = '"' ∨ quote = '\'' then
        if quote ∈ value then
          some (spaces ++ '=' :: spaces' ++ quote :: value.takeWhile (· ≠ quote) ++ [quote],
            (value.dropWhile (· ≠ quote)).tail)
        else none
      else
        let stays := fun c => !isHtmlSpace c && c ≠ '>'
        some (spaces ++ '=' :: spaces' ++ (quote :: value).takeWhile stays, (quote :: value).dropWhile stays)
  else some ([], text)

/-- `stripLangAttributes` on the text behind `<html`: the attributes that stay, and what follows the `>`.  `n` is the
length of the text; every round takes a character. -/
def stripLangAttributes : Nat → List Char → Option (List Char × List Char)
  | 0, _ => none
  | n + 1, text =>
    let spaces := text.takeWhile isHtmlSpace
    match text.dropWhile isHtmlSpace with
    | [] => none
    | c :: rest =>
      if c = '>' then some (spaces, rest)
      else
        let inName := fun c => !isHtmlSpace c && !(c = '=' || c = '>' || c = '/')
        let name := c :: rest.takeWhile inName
        (skipValue (rest.dropWhile inName)).bind fun value =>
          (stripLangAttributes n value.2).map fun tag =>
            (if name.map Char.toLower = "lang".toList then tag.1 else spaces ++ name ++ value.1 ++ tag.1, tag.2)

/-! ### The document -/

def replaceAll (mark : Char) (text s : List Char) : List Char := s.flatMap fun c => if c = mark then text else [c]

def escapeAttr (s : List Char) : List Char :=
  replaceAll '>' "&gt;".toList (replaceAll '<' "&lt;".toList
    (replaceAll '"' "&quot;".toList (replaceAll '&' "&amp;".toList s)))

/-- `[\s>/]` -/
def endsOpener (c : Char) : Bool := Redirect.isSpace c || c = '>' || c = '/'

/-- `HTML_TAG_OPENER_RE.exec(html)`: what is before the match, and what is behind its letters. -/
def findOpener : List Char → Option (List Char × List Char)
  | [] => none
  | c :: text =>
    if HtmlTokens.opensTag endsOpener "html".toList (c :: text) then some ([], text.drop 4)
    else (findOpener text).map fun r => (c :: r.1, r.2)

/-- What `DOCTYPE_RE` matches, and the rest. -/
def splitDoctype (html : List Char) : List Char × List Char :=
  let rest := html.dropWhile Redirect.isSpace
  if (rest.take 9).map Char.toLower = "<!doctype".toList ∧ '>' ∈ rest then
    (html.takeWhile Redirect.isSpace ++ rest.takeWhile (· ≠ '>') ++ ['>'], (rest.dropWhile (· ≠ '>')).tail)
  else ([], html)

/-- ` lang="…"`, or nothing. -/
def langAttribute (lang : Option (List Char)) : List Char :=
  match lang with
  | none => []
  | some lang => " lang=\"".toList ++ escapeAttr lang ++ ['"']

def applyDocumentLanguage (html : List Char) (lang : Option (List Char)) : List Char :=
  let attr := langAttribute lang
  let opened := findOpener html
  match opened.bind fun r => (stripLangAttributes r.2.length r.2).map fun tag => (r.1, tag) with
  | some (before, tag) => before ++ "<html".toList ++ attr ++ tag.1 ++ '>' :: tag.2
  | none =>
    match lang with
    | none => html
    | some _ =>
      let split := splitDoctype html
      split.1 ++ "<html".toList ++ attr ++ '>' :: split.2

end CaeloCms.Site
